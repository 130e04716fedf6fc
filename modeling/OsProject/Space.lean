import OsProject.PageTable

/-!
# Address spaces in physical memory

`Space m pt A T` says that the page table at `pt` represents the user address
space `A`, with the entries `T` from `TRAPFRAME` on: each page of `A` is a page
of physical memory with these bytes, mapped with these flags, and no two of
them, nor a page and a table, are the same.

A page table is built and taken down with pages of the free list, so there is
one more thing to say: which pages it may use. `Owns m pt A T F` says that the
pages in `F` are exactly those that are free, or a table, or a page of `A`. So
`F` is what will be free again when the page table has been freed, and a
function that keeps `F` neither loses a page nor takes one that is not its own.
`Pool m F` is the same before a page table exists. What a function does to the
rest of memory is `Within m m' F`: nothing.

The lemmas of this module are about single pages; the loops of `vm.c` are in
the next one.
-/

namespace Xv6

open Set List Option

open Function (update update_comm update_eq_self update_of_ne update_self update_apply)

namespace Phys

/-- The number of pages below `TRAPFRAME`. -/
abbrev UVPN : ℕ := MAXVPN - 2

/-- The physical page that page `v` is mapped to. -/
def frame (m : Phys) (pt v : ℕ) : ℕ := PTE2PA (m.pte pt v)

/-- The pages that a page table and its address space are made of. -/
def owned (m : Phys) (pt : ℕ) (A : AddrSpace) : Set ℕ :=
  m.tables pt ∪ {x | ∃ v, (A v).isSome ∧ m.frame pt v = x}

/-- What `kfree` accepts. -/
def InRange (m : Phys) (x : ℕ) : Prop := x % PGSIZE = 0 ∧ m.kend ≤ x ∧ x < PHYSTOP

/-- The flag word of a leaf: valid, and not a link. -/
def IsLeaf (f : ℕ) : Prop := f < 2 ^ 10 ∧ hasFlag f PTE_V = true ∧ f ≠ PTE_V

/-- The page table at `pt` represents `A`, with the entries `T` above. -/
structure Space (m : Phys) (pt : ℕ) (A : AddrSpace) (T : ℕ → ℕ) : Prop where
  table : Table m pt
  user : ∀ v pg, A v = some pg → v < UVPN ∧ PTE_FLAGS (m.pte pt v) = pg.flags ∧
    IsLeaf pg.flags ∧ m.page (m.frame pt v) = pg.bytes
  absent : ∀ v < UVPN, A v = none → m.pte pt v = 0
  top : ∀ v, UVPN ≤ v → v < NVPN → m.pte pt v = T v
  inj : ∀ v v', (A v).isSome → (A v').isSome → m.frame pt v = m.frame pt v' → v = v'
  sep : ∀ v, (A v).isSome → m.frame pt v ∉ m.tables pt

/-- The pages that are free. -/
abbrev free (m : Phys) : Set ℕ := {x | x ∈ m.freelist}

/-- The free pages are those in `F`. -/
structure Pool (m : Phys) (F : Set ℕ) : Prop where
  nodup : m.freelist.Nodup
  mem : ∀ x, x ∈ m.freelist ↔ x ∈ F
  range : ∀ x ∈ F, m.InRange x

/-- The pages in `F` are those that are free or that the page table and its
address space are made of. -/
structure Owns (m : Phys) (pt : ℕ) (A : AddrSpace) (T : ℕ → ℕ) (F : Set ℕ) : Prop
    extends Space m pt A T where
  nodup : m.freelist.Nodup
  free : ∀ x, x ∈ m.freelist ↔ x ∈ F ∧ x ∉ m.owned pt A
  sub : m.owned pt A ⊆ F
  range : ∀ x ∈ F, m.InRange x

/-- Only pages in `F` have changed. -/
structure Within (m m' : Phys) (F : Set ℕ) : Prop where
  page : ∀ x, x ∉ F → m'.page x = m.page x
  kend : m'.kend = m.kend
  trampoline : m'.trampoline = m.trampoline

variable {m m' m₁ m₂ : Phys} {pt g x v w f : ℕ} {A : AddrSpace} {T : ℕ → ℕ} {F G : Set ℕ}
  {rest : List ℕ}

/-! ## Changes within a set of pages -/

theorem Within.refl : Within m m F := ⟨fun _ _ => rfl, rfl, rfl⟩

theorem Within.trans (h : Within m m₁ F) (h' : Within m₁ m₂ F) : Within m m₂ F where
  page x hx := (h'.page x hx).trans (h.page x hx)
  kend := h'.kend.trans h.kend
  trampoline := h'.trampoline.trans h.trampoline

theorem Within.mono (h : Within m m' F) (hFG : F ⊆ G) : Within m m' G :=
  ⟨fun x hx => h.page x (fun hxF => hx (hFG hxF)), h.kend, h.trampoline⟩

theorem Within.inRange (h : Within m m' F) : m'.InRange x ↔ m.InRange x := by
  unfold InRange
  rw [h.kend]

theorem within_setPage (hx : x ∈ F) (P : Page) : Within m (m.setPage x P) F := by
  refine ⟨fun y hy => ?_, rfl, rfl⟩
  have hne : y ≠ x := fun he => hy (he ▸ hx)
  rw [setPage_page, update_of_ne hne]

theorem InRange.isPage (h : m.InRange x) : IsPage x :=
  ⟨h.1, lt_trans h.2.2 (by decide)⟩

/-! ## Entries that stay -/

/-- The entries of the pages in `S` have not changed. -/
def Kept (m m' : Phys) (pt : ℕ) (S : Set ℕ) : Prop :=
  ∀ u ∈ S, u < NVPN → m'.pte pt u = m.pte pt u

section Kept

variable {S S' : Set ℕ}

theorem Kept.refl : Kept m m pt S := fun _ _ _ => rfl

theorem Kept.trans (h : Kept m m₁ pt S) (h' : Kept m₁ m₂ pt S) : Kept m m₂ pt S :=
  fun u hu hn => (h' u hu hn).trans (h u hu hn)

theorem Kept.mono (h : Kept m m' pt S) (hS : S' ⊆ S) : Kept m m' pt S' :=
  fun u hu hn => h u (hS hu) hn

/-- Pages that are not tables may be written. -/
theorem kept_of_page (h : ∀ x ∈ m.tables pt, m'.page x = m.page x) : Kept m m' pt S :=
  fun u _ _ => pte_congr h u

/-- Only the entry that is written changes. -/
theorem Table.kept_setEntry (h : Table m pt) (hv : v < NVPN) (hg : m.node pt (vpath v) = some g)
    (hw : w < 2 ^ 64) (hS : v ∉ S) : Kept m (m.setEntry g (idx v) w) pt S := by
  intro u hu hn
  have hne : u ≠ v := fun he => hS (he ▸ hu)
  rw [(h.setLeaf hv hg hw).2.2.2 u hn, if_neg hne]

end Kept

/-! ## The allocator -/

/-- The memory after `kfree` of a page it accepts. -/
def kfreed (m : Phys) (x : ℕ) : Phys := { m.memset x 1 with freelist := x :: m.freelist }

@[simp] theorem page_kfreed : (m.kfreed x).page = update m.page x (fun _ => 1) := rfl
@[simp] theorem freelist_kfreed : (m.kfreed x).freelist = x :: m.freelist := rfl

theorem kfree_of_inRange (h : m.InRange x) : m.kfree x = .ok (m.kfreed x) := by
  obtain ⟨h1, h2, h3⟩ := h
  rw [kfree, if_neg]
  · rfl
  · rintro (h | h | h)
    · exact h h1
    · exact absurd h2 h.not_ge
    · exact absurd h3 h.not_gt

theorem within_kfreed (hx : x ∈ F) : Within m (m.kfreed x) F :=
  ⟨(within_setPage hx _).page, rfl, rfl⟩

/-- Freeing one page and writing an entry of another can be done in either
order. -/
theorem setEntry_kfreed (hgx : g ≠ x) (i : Fin 512) :
    (m.kfreed x).setEntry g i w = (m.setEntry g i w).kfreed x := by
  simp only [kfreed, setEntry, memset, setPage, update_of_ne hgx]
  rw [update_comm hgx]

theorem Pool.kfree (h : Pool m F) (hx : m.InRange x) (hxF : x ∉ F) :
    Pool (m.kfreed x) (insert x F) where
  nodup := nodup_cons.mpr ⟨fun hm => hxF ((h.mem x).mp hm), h.nodup⟩
  mem y := by
    rw [freelist_kfreed, mem_cons, h.mem, mem_insert_iff]
  range y hy := by
    rcases hy with rfl | hy
    · exact hx
    · exact h.range y hy

theorem kalloc_nil (h : m.freelist = []) : m.kalloc = (m, none) := by
  rw [kalloc, h]

theorem kalloc_cons (h : m.freelist = x :: rest) :
    m.kalloc = ({ m with freelist := rest }.memset x 5, some x) := by
  rw [kalloc, h]

/-- The page that `kalloc` returns. -/
theorem within_kalloc (rest : List ℕ) : Within m ({ m with freelist := rest }.memset x 5) {x} :=
  (show Within m { m with freelist := rest } {x} from ⟨fun _ _ => rfl, rfl, rfl⟩).trans
    (within_setPage (mem_singleton x) _)

/-- The same with something written to it. -/
theorem within_kalloc_setPage (P : Page) (rest : List ℕ) :
    Within m (({ m with freelist := rest }.memset x 5).setPage x P) {x} :=
  (within_kalloc rest).trans (within_setPage (mem_singleton x) P)

/-- A page taken off the pool, then filled. -/
theorem Pool.kalloc (h : Pool m F) (hx : m.freelist = x :: rest) (P : Page) :
    Pool ({ m with freelist := rest }.setPage x P) (F \ {x}) := by
  have hnodup : (x :: rest).Nodup := hx ▸ h.nodup
  refine ⟨(nodup_cons.mp hnodup).2, fun y => ?_, fun y hy => h.range y hy.1⟩
  have hy := h.mem y
  rw [hx, mem_cons] at hy
  constructor
  · intro hr
    refine ⟨hy.mp (.inr hr), ?_⟩
    rintro rfl
    exact (nodup_cons.mp hnodup).1 hr
  · rintro ⟨hF, hne⟩
    exact (hy.mpr hF).resolve_left hne

/-! ## Changes elsewhere -/

/-- **What an address space is not made of may be written.** -/
theorem Space.of_page (h : Space m pt A T) (m' : Phys)
    (hp : ∀ x ∈ m.owned pt A, m'.page x = m.page x) :
    Space m' pt A T ∧ m'.owned pt A = m.owned pt A ∧ ∀ v, m'.pte pt v = m.pte pt v := by
  obtain ⟨ht, htab, -, hpte⟩ := h.table.of_page m' (fun x hx => hp x (.inl hx))
  have hfr : ∀ v, m'.frame pt v = m.frame pt v := fun v => by rw [frame, frame, hpte]
  refine ⟨⟨ht, fun v pg hv => ?_, ?_, ?_, ?_, ?_⟩, ?_, hpte⟩
  · obtain ⟨h1, h2, h3, h4⟩ := h.user v pg hv
    refine ⟨h1, by rw [hpte, h2], h3, ?_⟩
    rw [hfr, hp _ (.inr ⟨v, by rw [hv]; rfl, rfl⟩), h4]
  · exact fun v hv hA => by rw [hpte, h.absent v hv hA]
  · exact fun v hv hv' => by rw [hpte, h.top v hv hv']
  · intro v v' hv hv' hf
    rw [hfr, hfr] at hf
    exact h.inj v v' hv hv' hf
  · intro v hv
    rw [hfr, htab]
    exact h.sep v hv
  · simp only [owned, htab, hfr]

theorem Owns.within (h : Owns m pt A T F) (hw : Within m m' G) (hG : ∀ x ∈ G, x ∉ m.owned pt A)
    (hfree : m'.freelist = m.freelist) : Owns m' pt A T F := by
  obtain ⟨hs, ho, -⟩ := h.toSpace.of_page m'
    (fun x hx => hw.page x (fun hxG => hG x hxG hx))
  refine ⟨hs, by rw [hfree]; exact h.nodup, fun x => ?_, by rw [ho]; exact h.sub,
    fun x hx => hw.inRange.mpr (h.range x hx)⟩
  rw [hfree, ho]
  exact h.free x

/-- A page table with the pages that are free beside it. -/
theorem Space.owns (h : Space m pt A T) (hp : Pool m m.free)
    (hr : ∀ x ∈ m.owned pt A, m.InRange x) (hf : ∀ x ∈ m.owned pt A, x ∉ m.freelist) :
    Owns m pt A T (m.free ∪ m.owned pt A) := by
  refine ⟨h, hp.nodup, fun x => ⟨fun hx => ⟨.inl hx, fun ho => hf x ho hx⟩, ?_⟩,
    subset_union_right, ?_⟩
  · rintro ⟨hx | hx, hno⟩
    · exact hx
    · exact absurd hx hno
  · rintro x (hx | hx)
    · exact hp.range x hx
    · exact hr x hx

section

variable (h : Owns m pt A T F)
include h

/-- A page taken off the free list, then filled. -/
theorem Owns.kalloc (hx : m.freelist = x :: rest) (P : Page) :
    x ∈ F ∧ Owns ({ m with freelist := rest }.setPage x P) pt A T (F \ {x}) ∧
      Within m ({ m with freelist := rest }.setPage x P) F := by
  have hnodup : (x :: rest).Nodup := hx ▸ h.nodup
  have hmem : ∀ y, y = x ∨ y ∈ rest ↔ y ∈ F ∧ y ∉ m.owned pt A := fun y => by
    rw [← h.free y, hx, mem_cons]
  obtain ⟨hxF, hxo⟩ := (hmem x).mp (.inl rfl)
  have hw : Within m ({ m with freelist := rest }.setPage x P) F :=
    ⟨(within_setPage hxF P).page, rfl, rfl⟩
  obtain ⟨hs, ho, -⟩ := h.toSpace.of_page ({ m with freelist := rest }.setPage x P)
    (fun y hy => by
      have hne : y ≠ x := fun he => hxo (he ▸ hy)
      rw [setPage_page, update_of_ne hne])
  refine ⟨hxF, ⟨hs, (nodup_cons.mp hnodup).2, fun y => ?_, ?_, fun y hy => h.range y hy.1⟩, hw⟩
  · rw [ho]
    constructor
    · intro hy
      obtain ⟨hyF, hyo⟩ := (hmem y).mp (.inr hy)
      exact ⟨⟨hyF, fun he => (nodup_cons.mp hnodup).1 (he ▸ hy)⟩, hyo⟩
    · rintro ⟨⟨hyF, hne⟩, hyo⟩
      exact ((hmem y).mpr ⟨hyF, hyo⟩).resolve_left hne
  · rw [ho]
    exact fun y hy => ⟨h.sub hy, fun he => hxo (he ▸ hy)⟩

theorem Owns.kfree (hx : m.InRange x) (hxF : x ∉ F) : Owns (m.kfreed x) pt A T (insert x F) := by
  have hxo : x ∉ m.owned pt A := fun ho => hxF (h.sub ho)
  obtain ⟨hs, ho, -⟩ := h.toSpace.of_page (m.kfreed x)
    (fun y hy => by
      have hne : y ≠ x := fun he => hxo (he ▸ hy)
      rw [page_kfreed, update_of_ne hne])
  refine ⟨hs, nodup_cons.mpr ⟨fun hm => hxF ((h.free x).mp hm).1, h.nodup⟩, fun y => ?_, ?_,
    fun y hy => ?_⟩
  · rw [ho, freelist_kfreed, mem_cons, h.free, mem_insert_iff]
    constructor
    · rintro (rfl | ⟨hyF, hyo⟩)
      · exact ⟨.inl rfl, hxo⟩
      · exact ⟨.inr hyF, hyo⟩
    · rintro ⟨rfl | hyF, hyo⟩
      · exact .inl rfl
      · exact .inr ⟨hyF, hyo⟩
  · rw [ho]
    exact fun y hy => .inr (h.sub hy)
  · rcases hy with rfl | hy
    · exact hx
    · exact h.range y hy

/-! ## A walk -/

theorem Owns.fresh : Fresh m pt where
  nodup := h.nodup
  isPage x hx := (h.range x ((h.free x).mp hx).1).isPage
  notMem x hx ht := ((h.free x).mp hx).2 (.inl ht)

theorem Owns.tables_subset : m.tables pt ⊆ F :=
  fun _ hx => h.sub (.inl hx)

/-- **A walk with allocation keeps the address space and the pool.** -/
theorem Owns.grown (hg : Grown m m' pt) : Owns m' pt A T F ∧ Within m m' F := by
  obtain ⟨l, hl, htab⟩ := hg.taken
  have hlF : ∀ x ∈ l, x ∈ F ∧ x ∉ m.owned pt A := fun x hx =>
    (h.free x).mp (hl ▸ mem_append_left _ hx)
  have hfr : ∀ v, m'.frame pt v = m.frame pt v := fun v => by rw [frame, frame, hg.pte]
  have hsep : ∀ v, (A v).isSome → m.frame pt v ∉ m'.tables pt := by
    intro v hv hx
    rw [htab] at hx
    rcases hx with hx | hx
    · exact h.sep v hv hx
    · exact (hlF _ hx).2 (.inr ⟨v, hv, rfl⟩)
  have ho : m'.owned pt A = m.owned pt A ∪ {x | x ∈ l} := by
    simp only [owned, htab, hfr]
    rw [union_right_comm]
  have htF : m'.tables pt ⊆ F := by
    rw [htab]
    exact union_subset h.tables_subset fun x hx => (hlF x hx).1
  have hw : Within m m' F := ⟨fun x hx => hg.page x (fun ht => hx (htF ht)), hg.kend, hg.trampoline⟩
  refine ⟨⟨⟨hg.table, fun v pg hv => ?_, ?_, ?_, ?_, ?_⟩, hg.fresh.nodup, fun x => ?_, ?_,
    fun x hx => hw.inRange.mpr (h.range x hx)⟩, hw⟩
  · obtain ⟨h1, h2, h3, h4⟩ := h.user v pg hv
    refine ⟨h1, by rw [hg.pte, h2], h3, ?_⟩
    rw [hfr, hg.page _ (hsep v (by rw [hv]; rfl)), h4]
  · exact fun v hv hA => by rw [hg.pte, h.absent v hv hA]
  · exact fun v hv hv' => by rw [hg.pte, h.top v hv hv']
  · intro v v' hv hv' hf
    rw [hfr, hfr] at hf
    exact h.inj v v' hv hv' hf
  · exact fun v hv => by rw [hfr]; exact hsep v hv
  · -- the free list lost `l`, which the tables gained
    have hnodup : (l ++ m'.freelist).Nodup := hl ▸ h.nodup
    have hx := h.free x
    rw [hl, mem_append] at hx
    rw [ho]
    constructor
    · intro hxf
      obtain ⟨hxF, hxo⟩ := hx.mp (.inr hxf)
      refine ⟨hxF, ?_⟩
      rintro (hxo' | hxl)
      · exact hxo hxo'
      · exact (nodup_append.mp hnodup).2.2 x hxl x hxf rfl
    · rintro ⟨hxF, hxo⟩
      exact (hx.mpr ⟨hxF, fun ho' => hxo (.inl ho')⟩).resolve_left fun hxl => hxo (.inr hxl)
  · rw [ho]
    exact union_subset h.sub fun x hx => (hlF x hx).1

end

/-! ## Writing an entry -/

theorem lt_NVPN (hv : v < UVPN) : v < NVPN :=
  hv.trans (by decide)

theorem IsLeaf.pte_ne_zero (h : IsLeaf (PTE_FLAGS w)) : w ≠ 0 := by
  rintro rfl
  exact absurd h.2.1 (by decide)

theorem IsLeaf.valid (h : IsLeaf (PTE_FLAGS w)) : hasFlag w PTE_V = true :=
  (hasFlag_PTE_FLAGS w (i := 0) (by decide)).symm.trans h.2.1

/-- The table with the entry of a mapped page. -/
theorem Space.exists_node {pg : UPage} (h : Space m pt A T) (hv : A v = some pg) :
    ∃ g, m.node pt (vpath v) = some g := by
  obtain ⟨-, h2, h3, -⟩ := h.user v pg hv
  exact exists_node_of_pte (IsLeaf.pte_ne_zero (h2 ▸ h3))

theorem node_mem_tables (hg : m.node pt (vpath v) = some g) : g ∈ m.tables pt :=
  ⟨vpath v, le_of_eq vpath_length, hg⟩

/-- What is mapped once a page has been unmapped. -/
theorem isSome_erase {u : ℕ} : (update A v none u).isSome ↔ u ≠ v ∧ (A u).isSome := by
  by_cases huv : u = v <;> simp [huv]

/-- The pages of an address space after one of them was mapped to `x`. -/
theorem owned_update {pg : Option UPage} (hpte : ∀ u < NVPN, m'.pte pt u =
      if u = v then w else m.pte pt u) (htab : m'.tables pt = m.tables pt)
    (hA : ∀ u, (A u).isSome → u < NVPN) (hv : v < NVPN) : m'.owned pt (update A v pg) =
      m.owned pt (update A v none) ∪ {y | pg.isSome ∧ y = PTE2PA w} := by
  have hfr : ∀ u, (A u).isSome → u ≠ v → m'.frame pt u = m.frame pt u := by
    intro u hu hne
    rw [frame, frame, hpte u (hA u hu), if_neg hne]
  have hfv : m'.frame pt v = PTE2PA w := by rw [frame, hpte v hv, if_pos rfl]
  rw [owned, owned, htab, union_assoc]
  refine congrArg (m.tables pt ∪ ·) (Set.ext (fun y => ?_))
  constructor
  · rintro ⟨u, hu, rfl⟩
    rw [update_apply] at hu
    split_ifs at hu with huv
    · subst huv
      exact .inr ⟨hu, hfv⟩
    · exact .inl ⟨u, isSome_erase.mpr ⟨huv, hu⟩, (hfr u hu huv).symm⟩
  · rintro (⟨u, hu, rfl⟩ | ⟨hpg, rfl⟩)
    · obtain ⟨huv, hu⟩ := isSome_erase.mp hu
      exact ⟨u, by rw [update_of_ne huv]; exact hu, hfr u hu huv⟩
    · exact ⟨v, by rw [update_self]; exact hpg, hfv⟩

theorem owned_erase_subset : m.owned pt (update A v none) ⊆ m.owned pt A := by
  rintro y (hy | ⟨u, hu, rfl⟩)
  · exact .inl hy
  · exact .inr ⟨u, (isSome_erase.mp hu).2, rfl⟩

/-- The page of one virtual page is not among those of the others. -/
theorem Space.frame_notMem (h : Space m pt A T) (hv : (A v).isSome) :
    m.frame pt v ∉ m.owned pt (update A v none) := by
  rintro (ht | ⟨u, hu, hf⟩)
  · exact h.sep v hv ht
  · obtain ⟨huv, hu⟩ := isSome_erase.mp hu
    exact huv (h.inj u v hu hv hf)

theorem owned_insert_frame (m : Phys) (pt : ℕ) (hv : (A v).isSome) :
    m.owned pt A = insert (m.frame pt v) (m.owned pt (update A v none)) := by
  refine Set.Subset.antisymm ?_ ?_
  · rintro y (hy | ⟨u, hu, rfl⟩)
    · exact .inr (.inl hy)
    · by_cases huv : u = v
      · exact .inl (by rw [huv])
      · exact .inr (.inr ⟨u, isSome_erase.mpr ⟨huv, hu⟩, rfl⟩)
  · rintro y (rfl | hy)
    · exact .inr ⟨v, hv, rfl⟩
    · exact owned_erase_subset hy

/-- What an entry has to be for its page to be `pg`. -/
def EntryFor (m : Phys) (w : ℕ) : Option UPage → Prop
  | none => w = 0
  | some pg => PTE_FLAGS w = pg.flags ∧ IsLeaf pg.flags ∧ m.page (PTE2PA w) = pg.bytes

/-- **Writing the entry of a user page.** The page it maps must not be in use
for another. -/
theorem Space.setLeaf (h : Space m pt A T) (pg : Option UPage) (hv : v < UVPN)
    (hg : m.node pt (vpath v) = some g) (hw : w < 2 ^ 64) (he : EntryFor m w pg)
    (hnew : pg.isSome → PTE2PA w ∉ m.owned pt (update A v none)) :
    Space (m.setEntry g (idx v) w) pt (update A v pg) T ∧
    (m.setEntry g (idx v) w).owned pt (update A v pg) =
      m.owned pt (update A v none) ∪ {y | pg.isSome ∧ y = PTE2PA w} := by
  obtain ⟨ht, htab, -, hpte⟩ := h.table.setLeaf (lt_NVPN hv) hg hw
  have hA : ∀ u, (A u).isSome → u < NVPN := fun u hu => by
    obtain ⟨pg', hpg'⟩ := isSome_iff_exists.mp hu
    exact lt_NVPN (h.user u pg' hpg').1
  have hfr : ∀ u, (A u).isSome → u ≠ v →
      (m.setEntry g (idx v) w).frame pt u = m.frame pt u := by
    intro u hu hne
    rw [frame, frame, hpte u (hA u hu), if_neg hne]
  have hfv : (m.setEntry g (idx v) w).frame pt v = PTE2PA w := by
    rw [frame, hpte v (lt_NVPN hv), if_pos rfl]
  have hpage : ∀ y, y ∉ m.tables pt → (m.setEntry g (idx v) w).page y = m.page y := by
    intro y hy
    have hne : y ≠ g := fun he => hy (he ▸ node_mem_tables hg)
    rw [setEntry_page, update_of_ne hne]
  refine ⟨⟨ht, fun u pg' hu => ?_, fun u hu hAu => ?_, fun u hu hu' => ?_, ?_, fun u hu => ?_⟩,
    owned_update hpte htab hA (lt_NVPN hv)⟩
  · rw [update_apply] at hu
    split_ifs at hu with huv
    · subst huv
      subst hu
      obtain ⟨h1, h2, h3⟩ := he
      refine ⟨hv, by rw [hpte u (lt_NVPN hv), if_pos rfl, h1], h2, ?_⟩
      rw [hfv, hpage _ (fun ht' => hnew rfl (.inl ht')), h3]
    · have hs : (A u).isSome := by rw [hu]; rfl
      obtain ⟨h1, h2, h3, h4⟩ := h.user u pg' hu
      refine ⟨h1, by rw [hpte u (lt_NVPN h1), if_neg huv, h2], h3, ?_⟩
      rw [hfr u hs huv, hpage _ (h.sep u hs), h4]
  · rw [hpte u (lt_NVPN hu)]
    rw [update_apply] at hAu
    split_ifs at hAu with huv
    · subst hAu
      rw [if_pos huv]
      exact he
    · rw [if_neg huv, h.absent u hu hAu]
  · have huv : u ≠ v := fun he => absurd hv (not_lt.mpr (he ▸ hu))
    rw [hpte u hu', if_neg huv, h.top u hu hu']
  · -- two virtual pages, at most one of which is the new one
    have hone : ∀ u, u ≠ v → (update A v pg u).isSome →
        (update A v pg v).isSome →
        (m.setEntry g (idx v) w).frame pt u ≠ (m.setEntry g (idx v) w).frame pt v := by
      intro u huv hu hpg hf
      rw [update_of_ne huv] at hu
      rw [update_self] at hpg
      rw [hfr u hu huv, hfv] at hf
      exact hnew hpg (.inr ⟨u, isSome_erase.mpr ⟨huv, hu⟩, hf⟩)
    intro u u' hu hu' hf
    by_cases huv : u = v <;> by_cases huv' : u' = v
    · rw [huv, huv']
    · subst huv
      exact absurd hf.symm (hone u' huv' hu' hu)
    · subst huv'
      exact absurd hf (hone u huv hu hu')
    · rw [update_of_ne huv] at hu
      rw [update_of_ne huv'] at hu'
      rw [hfr u hu huv, hfr u' hu' huv'] at hf
      exact h.inj u u' hu hu' hf
  · rw [htab]
    rw [update_apply] at hu
    split_ifs at hu with huv
    · subst huv
      rw [hfv]
      exact fun ht' => hnew hu (.inl ht')
    · rw [hfr u hu huv]
      exact h.sep u hu

variable (h : Owns m pt A T F) {pg : UPage}
include h

/-- **Mapping a page that was not in the pool adds it.** -/
theorem Owns.mapUser (hv : v < UVPN) (hA : A v = none) (hg : m.node pt (vpath v) = some g)
    (hx : m.InRange x) (hxF : x ∉ F) (hf : IsLeaf f) :
    Owns (m.setEntry g (idx v) (PA2PTE x ||| f)) pt
      (update A v (some ⟨f, m.page x⟩)) T (insert x F) := by
  have hpa : PTE2PA (PA2PTE x ||| f) = x := PTE2PA_PA2PTE_or hx.isPage hf.1
  have herase : update A v none = A := by
    rw [← hA, update_eq_self]
  obtain ⟨hs, ho⟩ := h.toSpace.setLeaf (some ⟨f, m.page x⟩) hv hg
    (PA2PTE_or_lt hx.isPage hf.1) ⟨PTE_FLAGS_PA2PTE_or hf.1, hf, by rw [hpa]⟩
    (fun _ => by rw [hpa, herase]; exact fun hxo => hxF (h.sub hxo))
  rw [hpa, herase] at ho
  have ho' : ∀ y, y ∈ (m.setEntry g (idx v) (PA2PTE x ||| f)).owned pt
      (update A v (some ⟨f, m.page x⟩)) ↔ y ∈ m.owned pt A ∨ y = x := by
    intro y
    rw [ho]
    simp [or_comm]
  refine ⟨hs, h.nodup, fun y => ?_, fun y hy => ?_, fun y hy => ?_⟩
  · rw [ho', setEntry_freelist, h.free, mem_insert_iff]
    constructor
    · rintro ⟨hyF, hyo⟩
      exact ⟨.inr hyF, fun hy => hy.elim hyo (fun he => hxF (he ▸ hyF))⟩
    · rintro ⟨hyF, hyo⟩
      exact ⟨hyF.resolve_left (fun he => hyo (.inr he)), fun hy => hyo (.inl hy)⟩
  · rcases (ho' y).mp hy with hy | hy
    · exact .inr (h.sub hy)
    · exact .inl hy
  · rcases hy with rfl | hy
    · exact hx
    · exact h.range y hy

/-- **Unmapping a page takes it out of the pool.** -/
theorem Owns.unmapUser (hA : (A v).isSome) (hg : m.node pt (vpath v) = some g) :
    Owns (m.setEntry g (idx v) 0) pt (update A v none) T (F \ {m.frame pt v}) := by
  obtain ⟨pg, hpg⟩ := isSome_iff_exists.mp hA
  have hv := (h.user v pg hpg).1
  obtain ⟨hs, ho⟩ := h.toSpace.setLeaf none hv hg (by decide) rfl
    (fun hc => by cases hc)
  have ho' : (m.setEntry g (idx v) 0).owned pt (update A v none) =
      m.owned pt (update A v none) := by
    rw [ho]
    simp
  have hins := owned_insert_frame m pt hA
  have hnot := h.frame_notMem hA
  refine ⟨hs, h.nodup, fun y => ?_, fun y hy => ?_, fun y hy => h.range y hy.1⟩
  · rw [ho', setEntry_freelist, h.free, hins, mem_insert_iff, mem_sdiff,
      mem_singleton_iff]
    tauto
  · rw [ho'] at hy
    exact ⟨h.sub (owned_erase_subset hy), fun he => hnot (he ▸ hy)⟩

/-- Changing the flags of a page. -/
theorem Owns.reflag (hA : A v = some pg) (hg : m.node pt (vpath v) = some g)
    (hf : IsLeaf f) (hfl : PTE_FLAGS w = f) (hpa : PTE2PA w = m.frame pt v) (hw : w < 2 ^ 64) :
    Owns (m.setEntry g (idx v) w) pt (update A v (some ⟨f, pg.bytes⟩)) T F := by
  have hs : (A v).isSome := by rw [hA]; rfl
  obtain ⟨hv, -, -, hb⟩ := h.user v pg hA
  obtain ⟨hsp, ho⟩ := h.toSpace.setLeaf (some ⟨f, pg.bytes⟩) hv hg hw
    ⟨hfl, hf, by rw [hpa, hb]⟩ (fun _ => by rw [hpa]; exact h.frame_notMem hs)
  have ho' : (m.setEntry g (idx v) w).owned pt (update A v (some ⟨f, pg.bytes⟩)) =
      m.owned pt A := by
    rw [ho, owned_insert_frame m pt hs, hpa]
    ext y
    simp
  refine ⟨hsp, h.nodup, fun y => ?_, by rw [ho']; exact h.sub, h.range⟩
  rw [ho']
  exact h.free y

/-- Writing into a page. -/
theorem Owns.writeUser (hA : A v = some pg) (P : Page) :
    Owns (m.setPage (m.frame pt v) P) pt (update A v (some ⟨pg.flags, P⟩)) T F := by
  have hs : (A v).isSome := by rw [hA]; rfl
  have hpage : ∀ y ∈ m.tables pt, (m.setPage (m.frame pt v) P).page y = m.page y := by
    intro y hy
    have hne : y ≠ m.frame pt v := fun he => h.sep v hs (he ▸ hy)
    rw [setPage_page, update_of_ne hne]
  obtain ⟨ht, htab, -, hpte⟩ := h.table.of_page _ hpage
  have hfr : ∀ u, (m.setPage (m.frame pt v) P).frame pt u = m.frame pt u := fun u =>
    congrArg PTE2PA (hpte u)
  have hdom : ∀ u, (update A v (some ⟨pg.flags, P⟩) u).isSome = (A u).isSome := by
    intro u
    by_cases huv : u = v
    · rw [huv, update_self, hs]
      rfl
    · rw [update_of_ne huv]
  have ho : (m.setPage (m.frame pt v) P).owned pt (update A v (some ⟨pg.flags, P⟩)) =
      m.owned pt A := by
    simp only [owned, htab, hdom, hfr]
  refine ⟨⟨ht, fun u pg' hu => ?_, fun u hu hAu => ?_, fun u hu hu' => ?_, fun u u' hu hu' hf => ?_,
    fun u hu => ?_⟩, h.nodup, fun y => ?_, by rw [ho]; exact h.sub, h.range⟩
  · rw [hpte, hfr, setPage_page]
    rw [update_apply] at hu
    split_ifs at hu with huv
    · rw [some.injEq] at hu
      subst hu
      obtain ⟨h1, h2, h3, -⟩ := h.user v pg hA
      rw [huv, update_self]
      exact ⟨h1, h2, h3, rfl⟩
    · have hne : m.frame pt u ≠ m.frame pt v := fun he =>
        huv (h.inj u v (by rw [hu]; rfl) hs he)
      rw [update_of_ne hne]
      exact h.user u pg' hu
  · rw [hpte]
    refine h.absent u hu ?_
    rw [← isNone_iff_eq_none, ← not_isSome, ← hdom, hAu]
    rfl
  · rw [hpte, h.top u hu hu']
  · rw [hdom] at hu hu'
    rw [hfr, hfr] at hf
    exact h.inj u u' hu hu' hf
  · rw [hdom] at hu
    rw [hfr, htab]
    exact h.sep u hu
  · rw [ho]
    exact h.free y

/-- **Writing an entry from `TRAPFRAME` on.** -/
theorem Owns.setTop (hv : UVPN ≤ v) (hv' : v < NVPN) (hg : m.node pt (vpath v) = some g)
    (hw : w < 2 ^ 64) : Owns (m.setEntry g (idx v) w) pt A (update T v w) F := by
  obtain ⟨ht, htab, -, hpte⟩ := h.table.setLeaf hv' hg hw
  have huser : ∀ u, (A u).isSome → u < UVPN := fun u hu => by
    obtain ⟨pg, hpg⟩ := isSome_iff_exists.mp hu
    exact (h.user u pg hpg).1
  have hpte' : ∀ u < UVPN, (m.setEntry g (idx v) w).pte pt u = m.pte pt u := fun u hu => by
    have hne : u ≠ v := fun he => absurd hu (not_lt.mpr (he ▸ hv))
    rw [hpte u (lt_NVPN hu), if_neg hne]
  have hfr : ∀ u, (A u).isSome → (m.setEntry g (idx v) w).frame pt u = m.frame pt u :=
    fun u hu => by rw [frame, frame, hpte' u (huser u hu)]
  have ho : (m.setEntry g (idx v) w).owned pt A = m.owned pt A := by
    rw [owned, owned, htab]
    refine congrArg (m.tables pt ∪ ·) (Set.ext (fun y => ?_))
    exact exists_congr fun u => and_congr_right (fun hu => by rw [hfr u hu])
  refine ⟨⟨ht, fun u pg hu => ?_, fun u hu hAu => ?_, fun u hu hu' => ?_, fun u u' hu hu' hf => ?_,
    fun u hu => ?_⟩, h.nodup, fun y => ?_, by rw [ho]; exact h.sub, h.range⟩
  · have hs : (A u).isSome := by rw [hu]; rfl
    obtain ⟨h1, h2, h3, h4⟩ := h.user u pg hu
    have hne : m.frame pt u ≠ g := fun he => h.sep u hs (he ▸ node_mem_tables hg)
    rw [hpte' u h1, hfr u hs, setEntry_page, update_of_ne hne]
    exact ⟨h1, h2, h3, h4⟩
  · rw [hpte' u hu, h.absent u hu hAu]
  · rw [hpte u hu']
    split_ifs with huv
    · rw [huv, update_self]
    · rw [update_of_ne huv, h.top u hu hu']
  · rw [hfr u hu, hfr u' hu'] at hf
    exact h.inj u u' hu hu' hf
  · rw [hfr u hu, htab]
    exact h.sep u hu
  · rw [ho]
    exact h.free y

theorem Owns.within_setEntry (hg : m.node pt (vpath v) = some g) (w : ℕ) :
    Within m (m.setEntry g (idx v) w) F :=
  within_setPage (h.tables_subset (node_mem_tables hg)) _

end Phys

end Xv6
