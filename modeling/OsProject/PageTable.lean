import OsProject.Radix
import OsProject.Vm

/-!
# Page tables are finite maps

The three levels of tables below a root are a radix tree of depth two
(`Radix`), and what they represent is a map from virtual page numbers to
entries: `pte m pt v` is the entry for page `v`, or 0 if a table on the way to
it does not exist. Nothing is added to the memory to say so; the map is read
off by following the links.

`Table m pt` is what the code relies on: no table is reached twice, and an
entry above the bottom level is either 0 or a link. Under it a walk without
allocation finds the entry (`walk_find`), a walk with allocation changes no
translation whether or not it succeeds (`walk_alloc`), and a write through the
pointer it returns changes one translation (`Table.setLeaf`).
-/

namespace Xv6

open Option Radix List

open Function (update update_idem update_of_ne update_self)

/-- The flags of an entry that `mappages` or `walk` wrote. -/
theorem hasFlag_PA2PTE_or (pa : ℕ) {f i : ℕ} (hf : f < 2 ^ 10) (hi : i < 10) :
    hasFlag (PA2PTE pa ||| f) (2 ^ i) = hasFlag f (2 ^ i) := by
  rw [← hasFlag_PTE_FLAGS _ hi, PTE_FLAGS_PA2PTE_or hf]

namespace Phys

/-! ## The tree -/

/-- The table an entry links to. -/
def target (w : ℕ) : Option ℕ := if hasFlag w PTE_V then some (PTE2PA w) else none

/-- The table at the end of a path of indices. -/
abbrev node (m : Phys) (pt : ℕ) (p : List (Fin 512)) : Option ℕ :=
  descend target m.entry pt p

/-- The tables of a page table. -/
abbrev tables (m : Phys) (pt : ℕ) : Set ℕ := nodes target m.entry pt 2

/-- An index in a table. -/
def idx (x : ℕ) : Fin 512 := ⟨x % 512, Nat.mod_lt _ (by decide)⟩

/-- The indices that lead to the bottom table for page `v`. -/
def vpath (v : ℕ) : List (Fin 512) := [idx (v / 2 ^ 18), idx (v / 2 ^ 9)]

/-- The entry for page `v`. -/
def pte (m : Phys) (pt v : ℕ) : ℕ := (m.node pt (vpath v)).elim 0 (fun g => m.entry g (idx v))

/-- The number of pages a page table has entries for. The code uses half of
them, those below `MAXVA`. -/
abbrev NVPN : ℕ := 2 ^ 27

/-- The number of pages below `MAXVA`. -/
abbrev MAXVPN : ℕ := 2 ^ 26

/-- The number of tables that a walk along the indices has to add. -/
def missing (m : Phys) : ℕ → List (Fin 512) → ℕ
  | _, [] => 0
  | g, i :: is =>
    match target (m.entry g i) with
    | some b => missing m b is
    | none => is.length + 1

/-- The shape of a page table. -/
structure Table (m : Phys) (pt : ℕ) : Prop where
  tree : Radix.IsTree target m.entry pt 2
  link : ∀ p a i, p.length < 2 → m.node pt p = some a →
    m.entry a i = 0 ∨ ∃ b, IsPage b ∧ m.entry a i = PA2PTE b ||| PTE_V

/-- The pages that the allocator may hand out to a page table. -/
structure Fresh (m : Phys) (pt : ℕ) : Prop where
  nodup : m.freelist.Nodup
  isPage : ∀ x ∈ m.freelist, IsPage x
  notMem : ∀ x ∈ m.freelist, x ∉ m.tables pt

variable {m m' m₁ m₂ : Phys} {pt g x a v w : ℕ} {p : List (Fin 512)} {i : Fin 512}

@[simp] theorem target_zero : target 0 = none := rfl

theorem target_link (hx : IsPage x) : target (PA2PTE x ||| PTE_V) = some x := by
  have hf : hasFlag (PA2PTE x ||| PTE_V) PTE_V = true :=
    (hasFlag_PA2PTE_or x (f := 1) (i := 0) (by decide) (by decide)).trans rfl
  rw [target, if_pos hf, PTE2PA_PA2PTE_or hx (by decide)]

theorem node_snoc : m.node pt (p ++ [i]) = (m.node pt p).bind (fun b => target (m.entry b i)) :=
  descend_snoc

theorem vpath_length : (vpath v).length = 2 := rfl

/-- Different pages have different places. -/
theorem eq_of_vpath {v' : ℕ} (hv : v < NVPN) (hv' : v' < NVPN) (hp : vpath v = vpath v')
    (hi : idx v = idx v') : v = v' := by
  simp only [vpath, idx, cons.injEq, Fin.mk.injEq, and_true] at hp hi
  have hlt : v < 2 ^ 27 ∧ v' < 2 ^ 27 := ⟨hv, hv'⟩
  omega

theorem PX_zero (va : ℕ) : PX 0 va = idx (va / PGSIZE) := rfl

theorem PX_path (va : ℕ) : [PX 2 va, PX 1 va] = vpath (va / PGSIZE) := by
  simp only [PX, vpath, idx, cons.injEq, Fin.mk.injEq, and_true]
  rw [Nat.div_div_eq_div_mul, Nat.div_div_eq_div_mul]
  exact ⟨rfl, rfl⟩

theorem pte_of_node (hg : m.node pt (vpath v) = some g) : m.pte pt v = m.entry g (idx v) := by
  rw [pte, hg]
  rfl

/-- Where there is no table, there is no entry. -/
theorem pte_of_node_none (hg : m.node pt (vpath v) = none) : m.pte pt v = 0 := by
  rw [pte, hg]
  rfl

/-- An entry that is not 0 is in a table that exists. -/
theorem exists_node_of_pte (h : m.pte pt v ≠ 0) : ∃ g, m.node pt (vpath v) = some g := by
  cases hg : m.node pt (vpath v) with
  | some g => exact ⟨g, rfl⟩
  | none => exact absurd (pte_of_node_none hg) h

/-! ## Walking without allocation -/

theorem walkLevels_false (pt : ℕ) (is : List (Fin 512)) :
    walkLevels false m pt is = (m, m.node pt is) := by
  induction is generalizing pt with
  | nil => rfl
  | cons i is ih =>
    unfold walkLevels walkLevel
    rw [node, descend_cons, target]
    by_cases hf : hasFlag (m.entry pt i) PTE_V = true
    · simp only [hf, if_true]
      exact ih _
    · simp only [hf]
      rfl

/-- **A walk without allocation finds the entry's table, and changes
nothing.** -/
theorem walk_find {va : ℕ} (hva : va < MAXVA) : m.walk pt va false =
      .ok (m, (m.node pt (vpath (va / PGSIZE))).map (fun g => (g, idx (va / PGSIZE)))) := by
  rw [walk, if_neg hva.not_ge, PX_path, PX_zero, walkLevels_false]

theorem mul_lt_MAXVA (hv : v < MAXVPN) : v * PGSIZE < MAXVA := by
  show v * 4096 < 2 ^ 38
  have hv' : v < 2 ^ 26 := hv
  omega

/-- The walk to the entry of page `v`. -/
theorem walk_page (hv : v < MAXVPN) :
    m.walk pt (v * PGSIZE) false = .ok (m, (m.node pt (vpath v)).map (fun g => (g, idx v))) := by
  rw [walk_find (mul_lt_MAXVA hv), Nat.mul_div_cancel v (by decide)]

/-! ## Writing -/

/-- Paths depend on the tables only. -/
theorem node_congr (h : ∀ x ∈ m.tables pt, m'.page x = m.page x) (hp : p.length ≤ 2) :
    m'.node pt p = m.node pt p := by
  refine descend_congr_nodes (fun q b hq hb => ?_) hp
  funext i
  rw [entry, entry, h b ⟨q, hq.le, hb⟩]

/-- Translations depend on the tables only. -/
theorem pte_congr (h : ∀ x ∈ m.tables pt, m'.page x = m.page x) (v : ℕ) :
    m'.pte pt v = m.pte pt v := by
  rw [pte, pte, node_congr h (le_of_eq vpath_length)]
  cases hg : m.node pt (vpath v) with
  | none => rw [elim_none, elim_none]
  | some g =>
    rw [elim_some, elim_some, entry, entry, h g ⟨_, le_of_eq vpath_length, hg⟩]

/-- **What is not in the tree may be written.** -/
theorem Table.of_page (h : Table m pt) (m' : Phys) (hp : ∀ x ∈ m.tables pt, m'.page x = m.page x) :
    Table m' pt ∧ m'.tables pt = m.tables pt ∧ (∀ p, p.length ≤ 2 → m'.node pt p = m.node pt p) ∧
      ∀ v, m'.pte pt v = m.pte pt v := by
  have hn : ∀ p, p.length ≤ 2 → m'.node pt p = m.node pt p := fun p hlen => node_congr hp hlen
  refine ⟨⟨h.tree.congr hn, fun p a i hlen ha => ?_⟩, nodes_congr hn, hn, pte_congr hp⟩
  rw [hn p hlen.le] at ha
  rw [entry, hp a ⟨p, hlen.le, ha⟩]
  exact h.link p a i hlen ha

/-- **Writing an entry of a bottom table changes one translation.** -/
theorem Table.setLeaf (h : Table m pt) (hv : v < NVPN) (hg : m.node pt (vpath v) = some g)
    (hw : w < 2 ^ 64) : Table (m.setEntry g (idx v) w) pt ∧
    (m.setEntry g (idx v) w).tables pt = m.tables pt ∧
    (∀ p, p.length ≤ 2 → (m.setEntry g (idx v) w).node pt p = m.node pt p) ∧
    ∀ v' < NVPN, (m.setEntry g (idx v) w).pte pt v' = if v' = v then w else m.pte pt v' := by
  have hn : ∀ p, p.length ≤ 2 → (m.setEntry g (idx v) w).node pt p = m.node pt p := by
    intro p hp
    rw [node, entry_setEntry _ hw]
    exact descend_update_leaf h.tree hg vpath_length _ hp
  refine ⟨⟨h.tree.congr hn, fun p a i hp ha => ?_⟩, nodes_congr hn, hn, fun v' hv' => ?_⟩
  · rw [hn p hp.le] at ha
    have hne : a ≠ g := by
      rintro rfl
      rw [h.tree p _ a hp.le (le_of_eq vpath_length) ha hg] at hp
      exact absurd hp (lt_irrefl 2)
    rw [entry_setEntry _ hw, update_of_ne hne]
    exact h.link p a i hp ha
  · rw [pte, hn _ (le_of_eq vpath_length), entry_setEntry _ hw]
    split_ifs with hvv
    · rw [hvv, hg]
      simp
    · rw [pte]
      cases hg' : m.node pt (vpath v') with
      | none => rw [elim_none, elim_none]
      | some g' =>
        show update m.entry g _ g' (idx v') = m.entry g' (idx v')
        by_cases hgg : g' = g
        · -- the same table is reached by the same indices, so the entry differs
          have hpath : vpath v' = vpath v :=
            h.tree _ _ g (le_of_eq vpath_length) (le_of_eq vpath_length) (hgg ▸ hg') hg
          have hidx : idx v' ≠ idx v := fun hi => hvv (eq_of_vpath hv' hv hpath hi)
          rw [hgg, update_self, update_of_ne hidx]
        · rw [update_of_ne hgg]

/-! ## Walking with allocation -/

/-- What a walk with allocation does to the memory: it takes pages off the
free list, makes them tables of this page table, and changes no
translation. -/
structure Grown (m m' : Phys) (pt : ℕ) : Prop where
  table : Table m' pt
  fresh : Fresh m' pt
  taken : ∃ l, m.freelist = l ++ m'.freelist ∧ m'.tables pt = m.tables pt ∪ {x | x ∈ l}
  page : ∀ x, x ∉ m'.tables pt → m'.page x = m.page x
  pte : ∀ v, m'.pte pt v = m.pte pt v
  kend : m'.kend = m.kend
  trampoline : m'.trampoline = m.trampoline

theorem Grown.refl (h : Table m pt) (hf : Fresh m pt) : Grown m m pt where
  table := h
  fresh := hf
  taken := ⟨[], rfl, by simp⟩
  page _ _ := rfl
  pte _ := rfl
  kend := rfl
  trampoline := rfl

theorem Grown.tables_subset (h : Grown m m' pt) : m.tables pt ⊆ m'.tables pt := by
  obtain ⟨l, -, hl⟩ := h.taken
  rw [hl]
  exact Set.subset_union_left

theorem Grown.trans (h : Grown m m₁ pt) (h' : Grown m₁ m₂ pt) : Grown m m₂ pt where
  table := h'.table
  fresh := h'.fresh
  taken := by
    obtain ⟨l, hl, ht⟩ := h.taken
    obtain ⟨l', hl', ht'⟩ := h'.taken
    refine ⟨l ++ l', by rw [hl, hl', append_assoc], ?_⟩
    rw [ht', ht, Set.union_assoc]
    congr 1
    ext x
    simp
  page x hx := (h'.page x hx).trans (h.page x (fun hx' => hx (h'.tables_subset hx')))
  pte v := (h'.pte v).trans (h.pte v)
  kend := h'.kend.trans h.kend
  trampoline := h'.trampoline.trans h.trampoline

/-- The memory after a round of `walk` that allocated the table `x`, with
`rest` still free. -/
def linked (m : Phys) (g : ℕ) (i : Fin 512) (x : ℕ) (rest : List ℕ) : Phys :=
  (({ m with freelist := rest }.memset x 5).memset x 0).setEntry g i (PA2PTE x ||| PTE_V)

theorem entry_linked (rest : List ℕ) (i : Fin 512) (hx : IsPage x) (hxg : g ≠ x) :
    (m.linked g i x rest).entry = link m.entry g i x (fun _ => 0) (PA2PTE x ||| PTE_V) := by
  rw [linked, entry_setEntry _ (PA2PTE_or_lt hx (by decide)), memset, memset, entry_setPage,
    entry_setPage, update_idem, link]
  have hz : Page.word (fun _ => 0) = fun _ => 0 := funext Page.word_zero
  rw [hz, update_of_ne hxg]
  rfl

/-- **Hanging a zeroed page under an empty entry changes no translation.** -/
theorem Table.linked {rest : List ℕ} (h : Table m pt) (hf : Fresh m pt)
    (hfree : m.freelist = x :: rest) (hp : p.length < 2) (hg : m.node pt p = some g)
    (hi : target (m.entry g i) = none) :
    Grown m (m.linked g i x rest) pt ∧ (m.linked g i x rest).node pt (p ++ [i]) = some x ∧
      ∀ j, (m.linked g i x rest).entry x j = 0 := by
  have hmem : x ∈ m.freelist := by rw [hfree]; exact mem_cons_self
  have hx : IsPage x := hf.isPage x hmem
  have hxt : x ∉ m.tables pt := hf.notMem x hmem
  have hgx : g ≠ x := by
    rintro rfl
    exact hxt ⟨p, hp.le, hg⟩
  have hM := entry_linked (m := m) rest i hx hgx
  have hn : ∀ q : List (Fin 512), q.length ≤ 2 → (m.linked g i x rest).node pt q =
      if q = p ++ [i] then some x else m.node pt q := by
    intro q hq
    rw [node, hM]
    exact descend_link h.tree hg hp hi hxt (fun _ => target_zero) (target_link hx) hq
  have ht : (m.linked g i x rest).tables pt = insert x (m.tables pt) := by
    rw [tables, hM]
    exact nodes_link h.tree hg hp hi hxt (fun _ => target_zero) (target_link hx)
  have hpi : (p ++ [i]).length ≤ 2 := by
    rw [length_append]
    exact hp
  have hzero : ∀ j, (m.linked g i x rest).entry x j = 0 := by
    intro j
    rw [hM, Radix.link, update_of_ne hgx.symm, update_self]
  have hother : ∀ a, a ≠ x → a ≠ g → (m.linked g i x rest).entry a = m.entry a := by
    intro a hax hag
    rw [hM, Radix.link, update_of_ne hag, update_of_ne hax]
  have hnodup : (x :: rest).Nodup := hfree ▸ hf.nodup
  refine ⟨⟨⟨?_, ?_⟩, ⟨?_, ?_, ?_⟩, ⟨[x], ?_, ?_⟩, ?_, ?_, rfl, rfl⟩, by rw [hn _ hpi, if_pos rfl],
    hzero⟩
  · rw [hM]
    exact h.tree.link hg hp hi hxt (fun _ => target_zero) (target_link hx)
  · intro q a j hq ha
    rw [hn q hq.le] at ha
    split_ifs at ha with hqp
    · rw [Option.some.injEq] at ha
      exact .inl (ha ▸ hzero j)
    · have hax : a ≠ x := by
        rintro rfl
        exact hxt ⟨q, hq.le, ha⟩
      by_cases hag : a = g
      · subst hag
        rw [hM, Radix.link, update_self]
        by_cases hji : j = i
        · rw [hji, update_self]
          exact .inr ⟨x, hx, rfl⟩
        · rw [update_of_ne hji]
          exact h.link q a j hq ha
      · rw [hother a hax hag]
        exact h.link q a j hq ha
  · exact (nodup_cons.mp hnodup).2
  · exact fun y hy => hf.isPage y (hfree ▸ mem_cons_of_mem x hy)
  · intro y hy hyt
    rw [ht] at hyt
    rcases hyt with rfl | hyt
    · exact (nodup_cons.mp hnodup).1 hy
    · exact hf.notMem y (hfree ▸ mem_cons_of_mem x hy) hyt
  · rw [hfree]
    rfl
  · rw [ht]
    ext y
    simp [or_comm]
  · intro y hy
    rw [ht, Set.mem_insert_iff, not_or] at hy
    have hyg : y ≠ g := by
      rintro rfl
      exact hy.2 ⟨p, hp.le, hg⟩
    simp [Phys.linked, hy.1, hyg]
  · intro v
    rw [pte, pte, hn _ (le_of_eq vpath_length)]
    split_ifs with hv
    · rw [hv, node_snoc, hg]
      show (m.linked g i x rest).entry x _ = Option.elim (target (m.entry g i)) _ _
      rw [hzero, hi]
      rfl
    · cases hb : m.node pt (vpath v) with
      | none => rw [elim_none, elim_none]
      | some b =>
        refine congrFun (hother b ?_ ?_) _
        · rintro rfl
          exact hxt ⟨_, le_of_eq vpath_length, hb⟩
        · rintro rfl
          have hpv := h.tree _ _ b hp.le (le_of_eq vpath_length) hg hb
          rw [hpv] at hp
          exact absurd hp (lt_irrefl 2)

theorem missing_of_zero (hz : ∀ j, m.entry g j = 0) (is : List (Fin 512)) :
    m.missing g is = is.length := by
  cases is with
  | nil => rfl
  | cons i =>
    rw [missing, hz i]
    rfl

theorem missing_of_node {is : List (Fin 512)} (h : m.node g is = some a) : m.missing g is = 0 := by
  induction is generalizing g with
  | nil => rfl
  | cons i is ih =>
    rw [node, descend_cons] at h
    obtain ⟨b, hb, h⟩ := bind_eq_some_iff.mp h
    rw [missing, hb]
    exact ih h

/-- What the rounds of a walk with allocation do, from a table reached by `p`
along the indices `is`. They fail exactly if there are fewer free pages than
tables missing. -/
theorem walkLevels_alloc (h : Table m pt) (hf : Fresh m pt) (is : List (Fin 512))
    (hlen : (p ++ is).length ≤ 2) (hg : m.node pt p = some g) :
    ∃ m' r, walkLevels true m g is = (m', r) ∧ Grown m m' pt ∧
      (∀ b, r = some b → m'.node pt (p ++ is) = some b) ∧
      (r.isSome ↔ m.missing g is ≤ m.freelist.length) := by
  -- on the indices that are left; the tables so far are found along `p`
  induction is generalizing m p g with
  | nil =>
    refine ⟨m, some g, rfl, Grown.refl h hf, fun b hb => ?_, by simp [missing]⟩
    rw [append_nil, ← hb]
    exact hg
  | cons i is ih =>
    have hp : p.length < 2 := by
      rw [length_append, length_cons] at hlen
      omega
    have happ : p ++ [i] ++ is = p ++ i :: is := by simp
    unfold walkLevels walkLevel
    rw [missing, target]
    by_cases hflag : hasFlag (m.entry g i) PTE_V = true
    · have hb : m.node pt (p ++ [i]) = some (PTE2PA (m.entry g i)) := by
        rw [node_snoc, hg]
        show target (m.entry g i) = _
        rw [target, if_pos hflag]
      simp only [hflag, if_true]
      have hrec := ih h hf (by rw [happ]; exact hlen) hb
      rwa [happ] at hrec
    · simp only [hflag, kalloc]
      cases hfree : m.freelist with
      | nil => exact ⟨m, none, rfl, Grown.refl h hf, by simp, by simp⟩
      | cons x rest =>
        have hi : target (m.entry g i) = none := by rw [target, if_neg hflag]
        obtain ⟨hgrown, hnode, hzero⟩ := h.linked hf hfree hp hg hi
        obtain ⟨m', r, hw, hg', hr, hs⟩ := ih hgrown.table hgrown.fresh
          (by rw [happ]; exact hlen) hnode
        refine ⟨m', r, hw, hgrown.trans hg', by rw [← happ]; exact hr, ?_⟩
        rw [hs, missing_of_zero hzero]
        show is.length ≤ rest.length ↔ _
        rw [length_cons]
        simp

/-- **A walk with allocation finds the entry's table or runs out of memory,
and changes no translation.** -/
theorem walk_alloc (h : Table m pt) (hf : Fresh m pt) (hv : v < MAXVPN) :
    ∃ m' r, m.walk pt (v * PGSIZE) true = .ok (m', r) ∧ Grown m m' pt ∧
      (∀ q, r = some q → m'.node pt (vpath v) = some q.1 ∧ q.2 = idx v) ∧
      (r.isSome ↔ m.missing pt (vpath v) ≤ m.freelist.length) := by
  obtain ⟨m', r, hw, hg, hr, hs⟩ :=
    walkLevels_alloc (p := []) h hf (vpath v) (le_of_eq vpath_length) rfl
  refine ⟨m', r.map (fun b => (b, idx v)), ?_, hg, fun q hq => ?_, by rw [← hs]; simp⟩
  · rw [walk, if_neg (mul_lt_MAXVA hv).not_ge, PX_path, PX_zero,
      Nat.mul_div_cancel v (by decide), hw]
  · obtain ⟨b, hb, rfl⟩ := map_eq_some_iff.mp hq
    exact ⟨hr b hb, rfl⟩

end Phys

end Xv6
