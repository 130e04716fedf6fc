import OsProject.UserCopy

/-!
# Growing, copying and writing user memory

The functions of `vm.c` that change a user address space, as operations on
address spaces: `uvmalloc` adds zeroed pages at the end or leaves everything as
it was, `uvmdealloc` drops pages at the end, `uvmcopy` copies the pages of
another address space, `uvmclear` takes a page away from user mode, and
`copyout` writes bytes page by page, which is the same as writing them one by
one (`Owns.copyout`): the pages have gone with `Phys.copyoutLoop_eq`, and what
is left is a byte in a page of the address space.
-/

namespace Xv6

open AddrSpace List Phys Page Within Option

open Function (update update_eq_self update_idem update_of_ne update_self)

namespace AddrSpace

variable {A : AddrSpace} {v n k f : ℕ} {pg : UPage}

/-- With `n` zeroed pages from page `v` on. -/
def grow (A : AddrSpace) (v n flags : ℕ) : AddrSpace :=
  fun u => if v ≤ u ∧ u < v + n then some ⟨flags, fun _ => 0⟩ else A u

/-- The first `n` pages. -/
def firstPages (A : AddrSpace) (n : ℕ) : AddrSpace := fun u => if u < n then A u else none

/-- Page `v` without `PTE_U`. -/
def clear (A : AddrSpace) (v : ℕ) : AddrSpace :=
  update A v ((A v).map (fun pg =>
    { pg with flags := if hasFlag pg.flags PTE_U then pg.flags - PTE_U else pg.flags }))

theorem grow_zero : A.grow v 0 f = A := by
  funext u
  rw [grow, if_neg (by omega)]

theorem grow_succ : A.grow v (n + 1) f = grow (update A v (some ⟨f, fun _ => 0⟩)) (v + 1) n f := by
  funext u
  unfold grow
  by_cases huv : u = v
  · subst huv
    rw [if_pos (by omega), if_neg (by omega), update_self]
  · rw [update_of_ne huv]
    exact if_congr (by omega) rfl rfl

theorem Spans.grow (h : A.Spans n) (hk : n ≤ k) : (A.grow n (k - n) f).Spans k := by
  intro u
  unfold AddrSpace.grow
  split_ifs with hu
  · exact iff_of_true rfl (by omega)
  · rw [h u]
    omega

theorem Spans.update_some (h : A.Spans v) (pg : UPage) : Spans (update A v (some pg)) (v + 1) := by
  intro u
  by_cases huv : u = v
  · rw [huv, update_self]
    exact iff_of_true rfl (by omega)
  · rw [update_of_ne huv, h u]
    omega

/-- Dropping a page that was just added. -/
theorem Spans.unmap_update (h : A.Spans v) (hk : k ≤ v) (pg : UPage) :
    AddrSpace.unmap (update A v (some pg)) k (v + 1 - k) = A.unmap k (v - k) := by
  funext u
  unfold AddrSpace.unmap
  by_cases huv : u = v
  · rw [if_pos (by omega), if_neg (by omega), huv, h.eq_none le_rfl]
  · rw [update_of_ne huv]
    exact if_congr (by omega) rfl rfl

theorem unmap_self : A.unmap k (k - k) = A := by
  rw [Nat.sub_self, unmap_zero]

theorem Spans.clear (h : A.Spans n) (v : ℕ) : (A.clear v).Spans n := by
  intro u
  unfold AddrSpace.clear
  by_cases huv : u = v
  · rw [huv, update_self, isSome_map, h v]
  · rw [update_of_ne huv, h u]

theorem firstPages_zero : A.firstPages 0 = empty := by
  funext u
  rw [firstPages, if_neg (by omega)]
  rfl

theorem firstPages_succ (hv : A v = some pg) :
    A.firstPages (v + 1) = update (A.firstPages v) v (some pg) := by
  funext u
  unfold firstPages
  by_cases huv : u = v
  · rw [huv, if_pos (by omega), update_self, hv]
  · rw [update_of_ne huv]
    exact if_congr (by omega) rfl rfl

theorem spans_firstPages (h : ∀ u < n, (A u).isSome) : (A.firstPages n).Spans n := by
  intro u
  unfold firstPages
  split_ifs with hu
  · exact iff_of_true (h u hu) hu
  · exact iff_of_false (by simp) hu

end AddrSpace

namespace Phys

variable {m m' : Phys} {pt g x a v f n k rounds dstva old : ℕ} {A B : AddrSpace} {T T' : ℕ → ℕ}
  {F : Set ℕ} {pg : UPage} {src : List UInt8}

/-! ## A fresh page -/

/-- A page from `kalloc`, with the contents `P`, is mapped, or there is no memory for a table. -/
theorem Owns.mapNew {rest : List ℕ} (h : Owns m pt A T F) (hx : m.freelist = x :: rest) (P : Page)
    (perm : ℕ) (hv : v < UVPN) (hA : A v = none) (hf : IsLeaf (perm ||| PTE_V)) :
    ∃ m' ok, (({ m with freelist := rest } : Phys).setPage x P).mappages pt (v * PGSIZE) PGSIZE x
        perm = .ok (m', ok) ∧ x ∈ F ∧ Within m m' F ∧ Kept m m' pt {u | u ≠ v} ∧
      (ok = true → Owns m' pt (update A v (some ⟨perm ||| PTE_V, P⟩)) T F ∧ m'.frame pt v = x) ∧
      (ok = false → Owns m' pt A T (F \ {x}) ∧ m'.InRange x) := by
  obtain ⟨hxF, ho₁, hw₁⟩ := h.kalloc hx P
  have hk₁ : Kept m (({ m with freelist := rest } : Phys).setPage x P) pt {u | u ≠ v} :=
    kept_of_page (fun y hy => by
      have hne : y ≠ x := fun he => h.fresh.notMem x (hx ▸ mem_cons_self) (he ▸ hy)
      rw [setPage_page, update_of_ne hne])
  have hP : (({ m with freelist := rest } : Phys).setPage x P).page x = P := update_self ..
  generalize (({ m with freelist := rest } : Phys).setPage x P) = m₁ at ho₁ hw₁ hk₁ hP
  have hxr : m₁.InRange x := hw₁.inRange.mpr (h.range x hxF)
  obtain ⟨m', ok, hm', hw', hk', hyes, hno⟩ :=
    ho₁.mappages_user perm hv hA hxr (fun hc => hc.2 rfl) hf
  rw [hP, Set.insert_sdiff_singleton, Set.insert_eq_of_mem hxF] at hyes
  exact ⟨m', ok, hm', hxF, hw₁.trans (hw'.mono (fun y hy => hy.1)), hk₁.trans hk', hyes,
    fun hok => ⟨hno hok, hw'.inRange.mpr hxr⟩⟩

/-- A page that could not be mapped is freed. It is not a table. -/
theorem Owns.kfreeNew {S : Set ℕ} (h : Owns m pt A T (F \ {x})) (hx : x ∈ F) (hr : m.InRange x) :
    m.kfree x = .ok (m.kfreed x) ∧ Owns (m.kfreed x) pt A T F ∧ Within m (m.kfreed x) F ∧
      Kept m (m.kfreed x) pt S := by
  have ho := h.kfree hr (fun hc => hc.2 rfl)
  rw [Set.insert_sdiff_singleton, Set.insert_eq_of_mem hx] at ho
  refine ⟨kfree_of_inRange hr, ho, within_kfreed hx, kept_of_page (fun y hy => ?_)⟩
  have hne : y ≠ x := fun he => (h.tables_subset (he ▸ hy)).2 rfl
  rw [page_kfreed, update_of_ne hne]

/-! ## Growing and shrinking -/

theorem npages_mul (v : ℕ) : npages (v * PGSIZE) = v := by
  show (v * 4096 + 4096 - 1) / 4096 = v
  omega

theorem npages_le {s t : ℕ} (h : s ≤ t) : npages s ≤ npages t :=
  Nat.div_le_div_right (by omega)

section

variable (h : Owns m pt A T F)
include h

/-- **Shrinking drops the pages beyond the new size.** -/
theorem Owns.uvmdealloc (oldsz newsz : ℕ) (hn : A.Spans (npages oldsz)) :
    ∃ m', m.uvmdealloc pt oldsz newsz = .ok (m', if oldsz ≤ newsz then oldsz else newsz) ∧
      Owns m' pt (A.unmap (npages newsz) (npages oldsz - npages newsz)) T F ∧ Within m m' F ∧
      Kept m m' pt {u | u < npages newsz} := by
  by_cases hle : oldsz ≤ newsz
  · have hpages : npages oldsz - npages newsz = 0 := Nat.sub_eq_zero_of_le (npages_le hle)
    refine ⟨m, by rw [Phys.uvmdealloc, if_pos hle, if_pos hle], ?_, refl, Kept.refl⟩
    rw [hpages, unmap_zero]
    exact h
  · have hold := h.PGROUNDUP_eq hn
    have hnew : PGROUNDUP newsz = npages newsz * PGSIZE :=
      Phys.PGROUNDUP_eq (lt_of_le_of_lt (npages_le (le_of_lt (not_le.mp hle)))
        (lt_trans (h.spans_lt hn) (by decide)))
    rw [if_neg hle]
    by_cases hlt : npages newsz < npages oldsz
    · obtain ⟨m', hm', ho', hw', hk'⟩ := h.unmapLoop_user (v := npages newsz)
        (n := npages oldsz - npages newsz) (fun u _ hu => (hn u).mpr (by omega))
      refine ⟨m', ?_, ho', hw', hk'.mono (fun u hu => .inl hu)⟩
      rw [Phys.uvmdealloc, if_neg hle, hold, hnew,
        if_pos (mul_lt_mul_of_pos_right hlt (by decide))]
      show (m.uvmunmap pt (npages newsz * PGSIZE)
        ((npages oldsz * PGSIZE - npages newsz * PGSIZE) / PGSIZE) true >>= _) = _
      rw [← Nat.sub_mul, Nat.mul_div_cancel _ (by decide), uvmunmap,
        if_neg (by rw [Nat.mul_mod_left]; exact fun hc => hc rfl), hm', ok_bind]
    · have hpages : npages oldsz - npages newsz = 0 := by omega
      refine ⟨m, ?_, ?_, refl, Kept.refl⟩
      · rw [Phys.uvmdealloc, if_neg hle, hold, hnew,
          if_neg (fun hc => hlt (Nat.lt_of_mul_lt_mul_right hc))]
      · rw [hpages, unmap_zero]
        exact h

/-- The rollback of `uvmalloc`, with `v` pages mapped, `k` of them before. -/
theorem Owns.uvmdealloc_pages (hn : A.Spans v) :
    ∃ m' r, m.uvmdealloc pt (v * PGSIZE) (k * PGSIZE) = .ok (m', r) ∧
      Owns m' pt (A.unmap k (v - k)) T F ∧ Within m m' F ∧ Kept m m' pt {u | u < k} := by
  obtain ⟨m', hm', ho', hw', hk'⟩ := h.uvmdealloc (v * PGSIZE) (k * PGSIZE)
    (by rw [npages_mul]; exact hn)
  rw [npages_mul, npages_mul] at ho'
  rw [npages_mul] at hk'
  exact ⟨m', _, hm', ho', hw', hk'⟩

/-- The loop of `uvmalloc`, with `v` pages mapped, `k` of them before. -/
theorem Owns.allocLoop {xperm : ℕ} (hn : A.Spans v) (hk : k ≤ v)
    (hf : IsLeaf (PTE_R ||| PTE_U ||| xperm ||| PTE_V)) :
    ∃ m' ok, allocLoop pt (k * PGSIZE) xperm m (v * PGSIZE) n = .ok (m', ok) ∧ Within m m' F ∧
      Kept m m' pt {u | u < k} ∧
      (ok = true → Owns m' pt (A.grow v n (PTE_R ||| PTE_U ||| xperm ||| PTE_V)) T F) ∧
      (ok = false → Owns m' pt (A.unmap k (v - k)) T F) := by
  induction n generalizing m A v with
  | zero =>
    refine ⟨m, true, rfl, refl, Kept.refl, fun _ => ?_, fun hc => by cases hc⟩
    rw [grow_zero]
    exact h
  | succ n ih =>
    have hv : v < UVPN := h.spans_lt hn
    unfold allocLoop
    cases hfl : m.freelist with
    | nil =>
      obtain ⟨m', r, hm', ho', hw', hk'⟩ := h.uvmdealloc_pages hn
      refine ⟨m', false, ?_, hw', hk', (fun hc => by cases hc), fun _ => ho'⟩
      rw [kalloc_nil hfl]
      simp only [hm', ok_bind]
    | cons x rest =>
      obtain ⟨m₁, ok, hm₁, hxF, hw₁, hk₁, hyes, hno⟩ :=
        h.mapNew hfl (fun _ => 0) _ hv (hn.eq_none le_rfl) hf
      have hk₁ : Kept m m₁ pt {u | u < k} := hk₁.mono (fun u hu => ne_of_lt (hu.trans_le hk))
      rw [kalloc_cons hfl]
      simp only [memset_memset]
      rw [memset, hm₁, ok_bind]
      cases ok with
      | true =>
        obtain ⟨m', ok', hm', hw', hk', hyes', hno'⟩ :=
          ih (hyes rfl).1 (hn.update_some _) (by omega)
        refine ⟨m', ok', ?_, hw₁.trans hw', hk₁.trans hk', fun hok => ?_, fun hok => ?_⟩
        · rwa [Nat.succ_mul] at hm'
        · rw [grow_succ]
          exact hyes' hok
        · rw [← hn.unmap_update hk]
          exact hno' hok
      | false =>
        obtain ⟨hfree, ho₂, hw₂, hk₂⟩ := (hno rfl).1.kfreeNew hxF (hno rfl).2
        obtain ⟨m', r, hm', ho', hw', hk'⟩ := ho₂.uvmdealloc_pages hn
        refine ⟨m', false, ?_, (hw₁.trans hw₂).trans hw', (hk₁.trans hk₂).trans hk',
          (fun hc => by cases hc), fun _ => ho'⟩
        rw [hfree, ok_bind, hm']
        rfl

/-- **`uvmalloc` adds zeroed pages, or leaves the address space as it was.** -/
theorem Owns.uvmalloc (oldsz newsz xperm : ℕ) (hn : A.Spans (npages oldsz)) (hle : oldsz ≤ newsz)
    (hf : IsLeaf (PTE_R ||| PTE_U ||| xperm ||| PTE_V)) :
    ∃ m' ok, m.uvmalloc pt oldsz newsz xperm = .ok (m', if ok = true then newsz else 0) ∧
      Within m m' F ∧ Kept m m' pt {u | u < npages oldsz} ∧
      (ok = true → Owns m' pt (A.grow (npages oldsz) (npages newsz - npages oldsz)
        (PTE_R ||| PTE_U ||| xperm ||| PTE_V)) T F) ∧ (ok = false → Owns m' pt A T F) := by
  obtain ⟨m', ok, hm', hw', hk', hyes, hno⟩ := h.allocLoop
    hn le_rfl hf
  refine ⟨m', ok, ?_, hw', hk', hyes, fun hok => ?_⟩
  · have hcount : (newsz - npages oldsz * PGSIZE + PGSIZE - 1) / PGSIZE =
        npages newsz - npages oldsz := by
      show (newsz - (oldsz + 4096 - 1) / 4096 * 4096 + 4096 - 1) / 4096 =
        (newsz + 4096 - 1) / 4096 - (oldsz + 4096 - 1) / 4096
      omega
    rw [Phys.uvmalloc, if_neg hle.not_gt, h.PGROUNDUP_eq hn]
    simp only [hcount, hm', ok_bind]
  · rw [← unmap_self (A := A)]
    exact hno hok

end

/-! ## Reading and writing through the page table -/

/-- A flag of a mapped page is a flag of its entry. -/
theorem Space.hasFlag_pte {i : ℕ} (h : Space m pt A T) (hA : A v = some pg) (hi : i < 10) :
    hasFlag (m.pte pt v) (2 ^ i) = hasFlag pg.flags (2 ^ i) := by
  rw [← (h.user v pg hA).2.1, hasFlag_PTE_FLAGS _ hi]

/-- **`walkaddr` finds the pages for user mode.** -/
theorem Space.walkaddr {va : ℕ} (h : Space m pt A T) (hA : A (va / PGSIZE) = some pg)
    (hU : hasFlag pg.flags PTE_U = true) :
    m.walkaddr pt va = .ok (some (m.frame pt (va / PGSIZE))) := by
  obtain ⟨hv, -, hleaf, -⟩ := h.user _ pg hA
  rw [walkaddr_eq (hv.trans (by decide)), if_pos]
  exact ⟨(h.hasFlag_pte (i := 0) hA (by decide)).trans hleaf.2.1,
    (h.hasFlag_pte (i := 4) hA (by decide)).trans hU⟩

/-- **`uvmclear` takes a page away from user mode.** -/
theorem Owns.uvmclear (h : Owns m pt A T F) (hA : A v = some pg)
    (hU : hasFlag pg.flags PTE_U = true) (hf : IsLeaf (pg.flags - PTE_U)) :
    ∃ m', m.uvmclear pt (v * PGSIZE) = .ok m' ∧ Owns m' pt (A.clear v) T F ∧ Within m m' F := by
  obtain ⟨hv, hfl, -, -⟩ := h.user v pg hA
  obtain ⟨g, hg⟩ := h.exists_node hA
  have hpte := pte_of_node hg
  have hUe : hasFlag (m.pte pt v) PTE_U = true := (h.hasFlag_pte (i := 4) hA (by decide)).trans hU
  -- the flag is there, so the subtraction stays within the flag bits
  have hbit : m.pte pt v / 16 % 2 = 1 := by
    simpa [hasFlag] using hUe
  have hflags : PTE_FLAGS (m.pte pt v - PTE_U) = pg.flags - PTE_U := by
    rw [← hfl]
    show (m.pte pt v - 16) % 2 ^ 10 = m.pte pt v % 2 ^ 10 - 16
    omega
  have hpa : PTE2PA (m.pte pt v - PTE_U) = m.frame pt v := by
    show (m.pte pt v - 16) / 2 ^ 10 * 2 ^ 12 % 2 ^ 64 = m.pte pt v / 2 ^ 10 * 2 ^ 12 % 2 ^ 64
    have hdiv : (m.pte pt v - 16) / 2 ^ 10 = m.pte pt v / 2 ^ 10 := by omega
    rw [hdiv]
  have hlt : m.pte pt v - PTE_U < 2 ^ 64 :=
    lt_of_le_of_lt (Nat.sub_le _ _) (by rw [hpte]; exact word_lt _ _)
  have hclear : A.clear v = update A v (some ⟨pg.flags - PTE_U, pg.bytes⟩) := by
    unfold clear
    rw [hA]
    simp only [map_some, hU, if_true]
  refine ⟨m.setEntry g (idx v) (m.pte pt v - PTE_U), ?_, ?_, h.within_setEntry hg _⟩
  · rw [Phys.uvmclear, walk_page (hv.trans (by decide)), ok_bind, hg]
    show Except.ok (m.setEntry g (idx v) (if hasFlag (m.entry g (idx v)) PTE_U then _ else _)) = _
    rw [← hpte, if_pos hUe]
  · rw [hclear]
    exact h.reflag hA hg hf hflags hpa hlt

section Copyout

variable {tr tf : ℕ} (h : Owns m pt A (procTop tr tf) F)
include h

/-- The test of `copyout` is the one on the address space. -/
theorem Owns.mayWrite_iff (hv : v < MAXVPN) :
    MayWrite (m.pte pt v) ↔ A.writable v = true := by
  unfold writable
  cases hA : A v with
  | none =>
    refine iff_of_false (fun hc => ?_) (by decide)
    have hs := h.toSpace.isSome_of_mayRead hv hc.mayRead
    rw [hA] at hs
    exact absurd hs (by decide)
  | some pg =>
    have hV : hasFlag (m.pte pt v) PTE_V = hasFlag pg.flags PTE_V :=
      h.hasFlag_pte (i := 0) hA (by decide)
    have hW : hasFlag (m.pte pt v) PTE_W = hasFlag pg.flags PTE_W :=
      h.hasFlag_pte (i := 2) hA (by decide)
    have hU : hasFlag (m.pte pt v) PTE_U = hasFlag pg.flags PTE_U :=
      h.hasFlag_pte (i := 4) hA (by decide)
    rw [MayWrite, hV, hU, hW]
    simp only [Bool.and_eq_true, and_assoc]

theorem Owns.writeOk_eq (va : ℕ) :
    m.writeOk pt (va / PGSIZE) = decide (va < MAXVA ∧ A.writable (va / PGSIZE) = true) := by
  have hva : va / PGSIZE < MAXVPN ↔ va < MAXVA := by
    show va / 4096 < 2 ^ 26 ↔ va < 2 ^ 38
    omega
  rw [writeOk, decide_eq_decide, ← hva]
  exact and_congr_right fun hv => h.mayWrite_iff hv

theorem Owns.apart : Apart m pt :=
  fun v hv hw => h.sep v (h.toSpace.isSome_of_mayRead hv hw.mayRead)

/-- One byte. -/
theorem Owns.store {va : ℕ} (hw : A.writable (va / PGSIZE) = true) (b : UInt8) :
    Owns (m.storeAt (fun i => m.loc pt (va + i)) [b]) pt (A.store va b) (procTop tr tf) F ∧
      Within m (m.storeAt (fun i => m.loc pt (va + i)) [b]) F := by
  cases hA : A (va / PGSIZE) with
  | none =>
    rw [writable, hA] at hw
    cases hw
  | some pg =>
    have hmem : m.storeAt (fun i => m.loc pt (va + i)) [b] =
        m.setPage (m.frame pt (va / PGSIZE))
          (update pg.bytes ⟨va % PGSIZE, Nat.mod_lt _ PGSIZE_pos⟩ b) := by
      rw [← (h.user _ pg hA).2.2.2]
      exact congrArg (fun f => ({ m with page := f } : Phys)) (Function.curry_update ..)
    rw [hmem, AddrSpace.store, hA]
    exact ⟨h.writeUser hA _, within_setPage (h.sub (.inr ⟨_, by rw [hA]; rfl, rfl⟩)) _⟩

/-- Storing the bytes up to the first that cannot be written is what `copyout` does to the
address space. -/
theorem Owns.storeAt (va : ℕ) (src : List UInt8) :
    (A.copyout va src).2 =
        decide (Paged.extent PGSIZE (m.writeOk pt) va src.length = src.length) ∧
      Owns (m.storeAt (fun i => m.loc pt (va + i))
          (src.take (Paged.extent PGSIZE (m.writeOk pt) va src.length))) pt
        (A.copyout va src).1 (procTop tr tf) F ∧
      Within m (m.storeAt (fun i => m.loc pt (va + i))
        (src.take (Paged.extent PGSIZE (m.writeOk pt) va src.length))) F := by
  induction src generalizing m A va with
  | nil => exact ⟨rfl, h, refl⟩
  | cons b bs ih =>
    have hok := h.writeOk_eq va
    rw [AddrSpace.copyout, length_cons, Paged.extent]
    by_cases hw : va < MAXVA ∧ A.writable (va / PGSIZE) = true
    · rw [decide_eq_true hw] at hok
      obtain ⟨ho, hin⟩ := h.store hw.2 b
      -- the byte is not in a table, so the translation stays
      have hpte : ∀ v, (m.storeAt (fun i => m.loc pt (va + i)) [b]).pte pt v = m.pte pt v :=
        pte_congr (Agrees.storeAt (fun _ _ => rfl) h.apart va [b] (fun i hi => by
          rw [Nat.lt_one_iff.mp hi]
          exact hok))
      have hloc : (m.storeAt (fun i => m.loc pt (va + i)) [b]).loc pt = m.loc pt := by
        funext a
        rw [loc, loc, frame, frame, hpte]
      have hall : (m.storeAt (fun i => m.loc pt (va + i)) [b]).writeOk pt = m.writeOk pt := by
        funext v
        rw [writeOk, writeOk, hpte]
      obtain ⟨hr, ho', hw'⟩ := ih ho (va + 1)
      rw [hloc, hall] at ho' hw'
      rw [if_pos hw, if_pos hok, take_succ_cons, hr, hall]
      have hcons : ∀ cs : List UInt8, m.storeAt (fun i => m.loc pt (va + i)) (b :: cs) =
          (m.storeAt (fun i => m.loc pt (va + i)) [b]).storeAt
            (fun i => m.loc pt (va + 1 + i)) cs := by
        intro cs
        have happ := storeAt_append (m := m) (fun i => m.loc pt (va + i)) [b] cs
        simpa only [singleton_append, length_singleton, add_assoc] using happ
      rw [hcons]
      exact ⟨decide_eq_decide.mpr (by omega), ho', hin.trans hw'⟩
    · rw [decide_eq_false hw] at hok
      rw [if_neg hw, if_neg (Bool.eq_false_iff.mp hok)]
      exact ⟨rfl, h, refl⟩

/-- **`copyout` writes the bytes one by one**, and takes and frees no page. -/
theorem Owns.copyout (dstva : ℕ) (src : List UInt8) :
    ∃ m', m.copyout pt dstva src = .ok (m', (A.copyout dstva src).2) ∧
      Owns m' pt (A.copyout dstva src).1 (procTop tr tf) F ∧ Within m m' F ∧
      m'.freelist = m.freelist := by
  obtain ⟨hr, ho, hw⟩ := h.storeAt dstva src
  refine ⟨_, ?_, ho, hw, rfl⟩
  rw [hr]
  exact copyoutLoop_eq h.apart (fun _ _ => rfl) le_rfl

end Copyout

/-! ## Copying -/

theorem or_PTE_V (h : IsLeaf f) : f ||| PTE_V = f := by
  have hbit : f / 1 % 2 = 1 := by simpa [hasFlag] using h.2.1
  refine Nat.eq_of_testBit_eq fun i => ?_
  rw [Nat.testBit_or]
  cases i with
  | zero =>
    rw [Nat.testBit_zero, Nat.testBit_zero, Nat.div_one] at *
    simp [hbit]
  | succ =>
    rw [Nat.testBit_succ, Nat.testBit_succ, show PTE_V / 2 = 0 from rfl, Nat.zero_testBit,
      Bool.or_false]

/-- The loop of `uvmcopy`, after `v` pages. The pages of the old address space
are outside the pool of the new one. -/
theorem Owns.copyLoop (h : Owns m pt (B.firstPages v) T F) (hB : Space m old B T')
    (hsep : ∀ x ∈ m.owned old B, x ∉ F) (hn : ∀ u < v + n, (B u).isSome) :
    ∃ m' ok, copyLoop old pt m (v * PGSIZE) n = .ok (m', ok) ∧ Within m m' F ∧
      (ok = true → Owns m' pt (B.firstPages (v + n)) T F) ∧
      (ok = false → Owns m' pt empty T F) := by
  induction n generalizing m v with
  | zero => exact ⟨m, true, rfl, refl, fun _ => h, fun hc => by cases hc⟩
  | succ n ih =>
    obtain ⟨pg, hpg⟩ := isSome_iff_exists.mp (hn v (by omega))
    obtain ⟨hv, hfl, hleaf, hbytes⟩ := hB.user v pg hpg
    obtain ⟨_, hg⟩ := hB.exists_node hpg
    have hspan : (B.firstPages v).Spans v := spans_firstPages (fun u hu => hn u (by omega))
    have hV : hasFlag (m.pte old v) PTE_V = true := (hfl ▸ hleaf : IsLeaf (PTE_FLAGS _)).valid
    have hflags : pg.flags ||| PTE_V = pg.flags := or_PTE_V hleaf
    unfold copyLoop
    rw [walk_page (hv.trans (by decide)), ok_bind, Nat.mul_div_cancel _ (by decide), hg]
    simp only [map_some, ← pte_of_node hg, hV, Bool.true_eq_false, if_false, hfl]
    cases hfree : m.freelist with
    | nil =>
      obtain ⟨m', hm', ho', hw'⟩ := h.uvmunmap_all hspan
      refine ⟨m', false, ?_, hw', (fun hc => by cases hc), fun _ => ho'⟩
      rw [kalloc_nil hfree]
      simp only [hm', ok_bind]
    | cons x rest =>
      obtain ⟨m₁, ok, hm₁, hxF, hw₁, -, hyes, hno⟩ := h.mapNew hfree pg.bytes pg.flags hv
        (hspan.eq_none le_rfl) (by rw [hflags]; exact hleaf)
      have hxpa : m.frame old v ≠ x := fun he =>
        hsep _ (.inr ⟨v, by rw [hpg]; rfl, rfl⟩) (he ▸ hxF)
      have hmove : (({ m with freelist := rest } : Phys).memset x 5).page (PTE2PA (m.pte old v)) =
          pg.bytes := by
        rw [memset_page, ← frame, update_of_ne hxpa]
        exact hbytes
      rw [kalloc_cons hfree]
      simp only [hmove, setPage_memset]
      rw [hm₁, ok_bind]
      cases ok with
      | true =>
        have ho₁ := (hyes rfl).1
        rw [hflags, show (⟨pg.flags, pg.bytes⟩ : UPage) = pg from rfl, ← firstPages_succ hpg] at ho₁
        obtain ⟨hB₁, howned, -⟩ := hB.of_page _ (fun y hy => hw₁.page y (hsep y hy))
        obtain ⟨m', ok', hm', hw', hyes', hno'⟩ := ih ho₁ hB₁
          (fun y hy => hsep y (howned ▸ hy)) (fun u hu => hn u (by omega))
        refine ⟨m', ok', ?_, hw₁.trans hw', ?_, hno'⟩
        · rwa [Nat.succ_mul] at hm'
        · rw [add_comm n 1, ← add_assoc]
          exact hyes'
      | false =>
        obtain ⟨hfree, ho₂, hw₂, -⟩ := (hno rfl).1.kfreeNew (S := ∅) hxF (hno rfl).2
        obtain ⟨m', hm', ho', hw'⟩ := ho₂.uvmunmap_all hspan
        refine ⟨m', false, ?_, (hw₁.trans hw₂).trans hw', (fun hc => by cases hc), fun _ => ho'⟩
        rw [hfree, ok_bind, hm']
        rfl

/-- **`uvmcopy` copies an address space, or leaves the new one empty.** -/
theorem Owns.uvmcopy {sz : ℕ} (h : Owns m pt empty T F) (hB : Space m old B T')
    (hsep : ∀ x ∈ m.owned old B, x ∉ F) (hn : B.Spans (npages sz)) :
    ∃ m' ok, m.uvmcopy old pt sz = .ok (m', ok) ∧ Within m m' F ∧
      (ok = true → Owns m' pt B T F) ∧ (ok = false → Owns m' pt empty T F) := by
  rw [← firstPages_zero (A := B)] at h
  obtain ⟨m', ok, hm', hw', hyes, hno⟩ := h.copyLoop (n := npages sz) hB hsep
    (fun u hu => (hn u).mpr (by omega))
  have hall : B.firstPages (0 + npages sz) = B := by
    funext u
    rw [zero_add, firstPages]
    by_cases hu : u < npages sz
    · rw [if_pos hu]
    · rw [if_neg hu, hn.eq_none (not_lt.mp hu)]
  rw [hall] at hyes
  refine ⟨m', ok, ?_, hw', hyes, hno⟩
  rw [Phys.uvmcopy, ← zero_mul PGSIZE]
  exact hm'

end Phys

end Xv6
