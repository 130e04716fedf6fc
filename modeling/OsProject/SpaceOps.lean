import OsProject.Space
import Mathlib.Data.Fintype.EquivFin

/-!
# Building and taking down a page table

The functions of `vm.c` that map and unmap pages and free a page table, and
`proc_pagetable` and `proc_freepagetable`, in terms of address spaces.

None of the calls of `panic` in them is reached from a page table that
represents an address space, given arguments the address space accounts for;
and the pool of pages is what it was. In particular a page table that could
not be completed leaves nothing behind (`Pool.procPagetable`), and freeing one
gives back every page it was made of (`Owns.procFreepagetable`).
-/

namespace Xv6

open AddrSpace Set Radix List

open Function (update update_idem update_of_ne update_self)

namespace AddrSpace

/-- Without the `n` pages from page `v` on. -/
def unmap (A : AddrSpace) (v n : ℕ) : AddrSpace :=
  fun u => if v ≤ u ∧ u < v + n then none else A u

/-- The mapped pages are the first `n`. -/
def Spans (A : AddrSpace) (n : ℕ) : Prop := ∀ v, (A v).isSome ↔ v < n

theorem unmap_zero (A : AddrSpace) (v : ℕ) : A.unmap v 0 = A := by
  funext u
  rw [unmap, if_neg (by omega)]

theorem unmap_succ (A : AddrSpace) (v n : ℕ) :
    A.unmap v (n + 1) = unmap (update A v none) (v + 1) n := by
  funext u
  unfold unmap
  by_cases huv : u = v
  · subst huv
    rw [if_pos (by omega), if_neg (by omega), update_self]
  · rw [update_of_ne huv]
    exact if_congr (by omega) rfl rfl

theorem spans_empty : Spans empty 0 := fun v => by simp [empty]

theorem Spans.eq_none {A : AddrSpace} {n v : ℕ} (h : A.Spans n) (hv : n ≤ v) : A v = none := by
  rw [← Option.not_isSome_iff_eq_none, h v]
  exact not_lt.mpr hv

theorem Spans.unmap {A : AddrSpace} {n k : ℕ} (h : A.Spans n) (hk : k ≤ n) :
    (A.unmap k (n - k)).Spans k := by
  intro v
  unfold AddrSpace.unmap
  split_ifs with hv
  · exact iff_of_false (by simp) (by omega)
  · rw [h v]
    omega

theorem Spans.eq_empty {A : AddrSpace} (h : A.Spans 0) : A = empty :=
  funext (fun v => h.eq_none (Nat.zero_le v))

end AddrSpace

namespace Phys

variable {m m' : Phys} {pt g x a v w f n perm d b sz tf : ℕ} {A : AddrSpace} {T : ℕ → ℕ} {F : Set ℕ}
  {i : Fin 512} {S : Set (Fin 512)} {free : Phys → ℕ → Except Fault Phys}

/-! ## Mapping a page -/

/-- `mappages` for one page, which there is no memory to map. -/
theorem mappages_none (hw : m.walk pt (v * PGSIZE) true = .ok (m', none)) :
    m.mappages pt (v * PGSIZE) PGSIZE x perm = .ok (m', false) := by
  rw [mappages, if_neg (by rw [Nat.mul_mod_left]; exact fun h => h rfl),
    if_neg (by rw [Nat.mod_self]; exact fun h => h rfl), if_neg (by decide),
    Nat.div_self (by decide), mapLoop, hw, ok_bind]

/-- `mappages` for one page. -/
theorem mappages_some (hw : m.walk pt (v * PGSIZE) true = .ok (m', some (g, i)))
    (he : m'.entry g i = 0) : m.mappages pt (v * PGSIZE) PGSIZE x perm =
      .ok (m'.setEntry g i (PA2PTE x ||| perm ||| PTE_V), true) := by
  rw [mappages, if_neg (by rw [Nat.mul_mod_left]; exact fun h => h rfl),
    if_neg (by rw [Nat.mod_self]; exact fun h => h rfl), if_neg (by decide),
    Nat.div_self (by decide), mapLoop, hw, ok_bind]
  show (if hasFlag (m'.entry g i) PTE_V then _ else _) = _
  rw [he]
  rfl

/-- **Mapping a user page.** There is memory for it exactly if there is memory
for the tables that are missing. -/
theorem Owns.mappages_user (h : Owns m pt A T F) (perm : ℕ) (hv : v < UVPN) (hA : A v = none)
    (hx : m.InRange x) (hxF : x ∉ F) (hf : IsLeaf (perm ||| PTE_V)) :
    ∃ m' ok, m.mappages pt (v * PGSIZE) PGSIZE x perm = .ok (m', ok) ∧ Within m m' F ∧
      Kept m m' pt {u | u ≠ v} ∧
      (ok = true → Owns m' pt (update A v (some ⟨perm ||| PTE_V, m.page x⟩)) T
        (insert x F) ∧ m'.frame pt v = x) ∧ (ok = false → Owns m' pt A T F) := by
  obtain ⟨m', r, hw, hgr, hr, -⟩ := walk_alloc h.table h.fresh (hv.trans (by decide))
  obtain ⟨ho, hwi⟩ := h.grown hgr
  cases r with
  | none =>
    exact ⟨m', false, mappages_none hw, hwi, fun u _ _ => hgr.pte u, (fun hc => by cases hc),
      fun _ => ho⟩
  | some q =>
    obtain ⟨g, _⟩ := q
    obtain ⟨hg, rfl⟩ := hr _ rfl
    have he : m'.entry g (idx v) = 0 := by
      rw [← pte_of_node hg]
      exact ho.absent v hv hA
    have hlt : PA2PTE x ||| perm ||| PTE_V < 2 ^ 64 := by
      rw [Nat.or_assoc]
      exact PA2PTE_or_lt hx.isPage hf.1
    have hkept : Kept m (m'.setEntry g (idx v) (PA2PTE x ||| perm ||| PTE_V)) pt {u | u ≠ v} :=
      Kept.trans (fun u _ _ => hgr.pte u)
        (ho.table.kept_setEntry (lt_NVPN hv) hg hlt (fun hc => hc rfl))
    have hframe : (m'.setEntry g (idx v) (PA2PTE x ||| perm ||| PTE_V)).frame pt v = x := by
      obtain ⟨-, -, -, hpte⟩ := ho.table.setLeaf (lt_NVPN hv) hg hlt
      rw [frame, hpte v (lt_NVPN hv), if_pos rfl, Nat.or_assoc]
      exact PTE2PA_PA2PTE_or hx.isPage hf.1
    have hmap := ho.mapUser hv hA hg (hwi.inRange.mpr hx) hxF hf
    rw [hwi.page x hxF] at hmap
    rw [← Nat.or_assoc] at hmap
    exact ⟨_, true, mappages_some hw he, hwi.trans (ho.within_setEntry hg _), hkept,
      fun _ => ⟨hmap, hframe⟩, fun hc => by cases hc⟩

/-- **Mapping a page from `TRAPFRAME` on.** -/
theorem Owns.mappages_top (h : Owns m pt A T F) (perm : ℕ) (hv : UVPN ≤ v) (hv' : v < MAXVPN)
    (hT : T v = 0) (hx : IsPage x) (hf : perm ||| PTE_V < 2 ^ 10) :
    ∃ m' ok, m.mappages pt (v * PGSIZE) PGSIZE x perm = .ok (m', ok) ∧ Within m m' F ∧
      (ok = true → Owns m' pt A (update T v (PA2PTE x ||| perm ||| PTE_V)) F ∧
        ∃ g, m'.node pt (vpath v) = some g) ∧ (ok = false → Owns m' pt A T F) ∧
      (ok = true ↔ m.missing pt (vpath v) ≤ m.freelist.length) := by
  obtain ⟨m', r, hw, hgr, hr, hs⟩ := walk_alloc h.table h.fresh hv'
  obtain ⟨ho, hwi⟩ := h.grown hgr
  have hvn : v < NVPN := hv'.trans (by decide)
  cases r with
  | none =>
    refine ⟨m', false, mappages_none hw, hwi, (fun hc => by cases hc), fun _ => ho, ?_⟩
    rw [← hs]
    simp
  | some q =>
    obtain ⟨g, _⟩ := q
    obtain ⟨hg, rfl⟩ := hr _ rfl
    have he : m'.entry g (idx v) = 0 := by
      rw [← pte_of_node hg, ho.top v hv hvn, hT]
    have hlt : PA2PTE x ||| perm ||| PTE_V < 2 ^ 64 := by
      rw [Nat.or_assoc]
      exact PA2PTE_or_lt hx hf
    obtain ⟨-, -, hn, -⟩ := ho.table.setLeaf hvn hg hlt
    exact ⟨_, true, mappages_some hw he, hwi.trans (ho.within_setEntry hg _),
      fun _ => ⟨ho.setTop hv hvn hg hlt, g, (hn _ (le_of_eq vpath_length)).trans hg⟩,
      (fun hc => by cases hc), by rw [← hs]; simp⟩

/-! ## Unmapping pages -/

/-- A round of `uvmunmap`. -/
theorem unmapLoop_succ {doFree : Bool} (hv : v < MAXVPN) (hg : m.node pt (vpath v) = some g)
    (hf : IsLeaf (PTE_FLAGS (m.pte pt v))) : unmapLoop pt doFree m (v * PGSIZE) (n + 1) =
      (if doFree then m.kfree (m.frame pt v) else .ok m) >>= fun m =>
        unmapLoop pt doFree (m.setEntry g (idx v) 0) ((v + 1) * PGSIZE) n := by
  have hV : ¬ hasFlag (m.entry g (idx v)) PTE_V = false := by
    rw [← pte_of_node hg, Bool.not_eq_false]
    exact hf.valid
  have hL : ¬ PTE_FLAGS (m.entry g (idx v)) = PTE_V := by
    rw [← pte_of_node hg]
    exact hf.2.2
  rw [unmapLoop, walk_page hv, ok_bind, hg]
  show (if _ then _ else if _ then _ else _) = _
  rw [if_neg hV, if_neg hL, ← pte_of_node hg, Nat.succ_mul]
  cases doFree <;> rfl

/-- **Unmapping user pages and freeing them.** -/
theorem Owns.unmapLoop_user (h : Owns m pt A T F) (hA : ∀ u, v ≤ u → u < v + n → (A u).isSome) :
    ∃ m', unmapLoop pt true m (v * PGSIZE) n = .ok m' ∧ Owns m' pt (A.unmap v n) T F ∧
      Within m m' F ∧ Kept m m' pt {u | u < v ∨ v + n ≤ u} := by
  induction n generalizing m A v with
  | zero =>
    refine ⟨m, rfl, ?_, Within.refl, Kept.refl⟩
    rw [unmap_zero]
    exact h
  | succ n ih =>
    have hs : (A v).isSome := hA v le_rfl (by omega)
    obtain ⟨pg, hpg⟩ := Option.isSome_iff_exists.mp hs
    obtain ⟨hv, hfl, hleaf, -⟩ := h.user v pg hpg
    obtain ⟨g, hg⟩ := h.toSpace.exists_node hpg
    have hxF : m.frame pt v ∈ F := h.sub (.inr ⟨v, hs, rfl⟩)
    have hgx : g ≠ m.frame pt v := fun he => h.sep v hs (he ▸ node_mem_tables hg)
    -- the entry may as well be cleared before the page is freed
    have hun := h.unmapUser hs hg
    have hfree := hun.kfree (h.range _ hxF) (fun hc => hc.2 rfl)
    rw [insert_sdiff_singleton, insert_eq_of_mem hxF] at hfree
    obtain ⟨m', hm', ho', hw', hk'⟩ := ih hfree (v := v + 1) (fun u hu hu' => by
      rw [update_of_ne (by omega)]
      exact hA u (by omega) (by omega))
    have hkept : Kept m m' pt {u | u < v ∨ v + (n + 1) ≤ u} := by
      refine (h.table.kept_setEntry (w := 0) (lt_NVPN hv) hg (by decide) ?_).trans
        (Kept.trans (kept_of_page (fun y hy => ?_)) (hk'.mono ?_))
      · rintro (hc | hc) <;> omega
      · have hy' : y ∈ m.tables pt :=
          (h.table.setLeaf (w := 0) (lt_NVPN hv) hg (by decide)).2.1 ▸ hy
        have hne : y ≠ m.frame pt v := fun he => h.sep v hs (he ▸ hy')
        rw [page_kfreed, update_of_ne hne]
      · rintro u (hc | hc)
        · exact .inl (Nat.lt_succ_of_lt hc)
        · exact .inr (by omega)
    refine ⟨m', ?_, by rw [unmap_succ]; exact ho',
      ((h.within_setEntry hg 0).trans (within_kfreed hxF)).trans hw', hkept⟩
    rw [unmapLoop_succ (hv.trans (by decide)) hg (hfl ▸ hleaf), if_pos rfl,
      kfree_of_inRange (h.range _ hxF), ok_bind, setEntry_kfreed hgx]
    exact hm'

/-- **Unmapping a page from `TRAPFRAME` on.** -/
theorem Owns.uvmunmap_top (h : Owns m pt A T F) (hv : UVPN ≤ v) (hv' : v < MAXVPN)
    (hT : IsLeaf (PTE_FLAGS (T v))) : ∃ m', m.uvmunmap pt (v * PGSIZE) 1 false = .ok m' ∧
      Owns m' pt A (update T v 0) F ∧ Within m m' F := by
  have hvn : v < NVPN := hv'.trans (by decide)
  have hpte : m.pte pt v = T v := h.top v hv hvn
  obtain ⟨g, hg⟩ := exists_node_of_pte (hpte ▸ hT.pte_ne_zero)
  refine ⟨m.setEntry g (idx v) 0, ?_, h.setTop hv hvn hg (by decide), h.within_setEntry hg 0⟩
  rw [uvmunmap, if_neg (by rw [Nat.mul_mod_left]; exact fun h => h rfl),
    unmapLoop_succ hv' hg (hpte ▸ hT)]
  rfl

/-! ## Freeing the tables -/

/-- A loop over distinct indices keeps what each round keeps. `S` are the
indices that have been visited. -/
theorem exists_foldlM {σ ι : Type} {I : σ → Set ι → Prop} {k : σ → ι → Except Fault σ}
    (hstep : ∀ s S i, i ∉ S → I s S → ∃ s', k s i = .ok s' ∧ I s' (insert i S)) (l : List ι)
    (hl : l.Nodup) (S : Set ι) (hS : ∀ i ∈ l, i ∉ S) (s : σ) (hI : I s S) :
    ∃ s', l.foldlM k s = .ok s' ∧ I s' (S ∪ {i | i ∈ l}) := by
  induction l generalizing S s with
  | nil => exact ⟨s, rfl, by simpa using hI⟩
  | cons i l ih =>
    obtain ⟨hil, hl⟩ := nodup_cons.mp hl
    obtain ⟨s₁, hs₁, hI₁⟩ := hstep s S i (hS i mem_cons_self) hI
    obtain ⟨s', hs', hI'⟩ := ih hl (insert i S) (fun j hj => by
      rintro (rfl | hjS)
      · exact hil hj
      · exact hS j (mem_cons_of_mem i hj) hjS) s₁ hI₁
    refine ⟨s', by rw [foldlM_cons, hs₁]; exact hs', ?_⟩
    have hset : insert i S ∪ {j | j ∈ l} = S ∪ {j | j ∈ i :: l} := by
      ext j
      simp only [mem_union, mem_insert_iff, mem_ofPred_eq, mem_cons]
      tauto
    rw [← hset]
    exact hI'

/-- The tables below `a`, `d` levels deep, without any translation. -/
structure Bare (m : Phys) (a d : ℕ) : Prop where
  tree : Radix.IsTree target m.entry a d
  link : ∀ p b i, p.length < d → m.node a p = some b →
    m.entry b i = 0 ∨ ∃ c, IsPage c ∧ m.entry b i = PA2PTE c ||| PTE_V
  bottom : ∀ p b i, p.length = d → m.node a p = some b → m.entry b i = 0

/-- The tables below the entries `S` of a table. -/
def below (m : Phys) (a d : ℕ) (S : Set (Fin 512)) : Set ℕ :=
  {y | ∃ i ∈ S, ∃ b, target (m.entry a i) = some b ∧ y ∈ nodes target m.entry b d}

theorem Bare.child (h : Bare m a (d + 1)) (hb : target (m.entry a i) = some b) : Bare m b d := by
  have hcons : ∀ p, m.node a (i :: p) = m.node b p := by
    intro p
    rw [node, descend_cons, hb]
    rfl
  refine ⟨h.tree.child hb, fun p c j hp hc => ?_, fun p c j hp hc => ?_⟩
  · exact h.link (i :: p) c j (Nat.succ_lt_succ hp) ((hcons p).trans hc)
  · exact h.bottom (i :: p) c j (congrArg Nat.succ hp) ((hcons p).trans hc)

theorem Bare.of_page (h : Bare m a d) (hp : ∀ x ∈ nodes target m.entry a d, m'.page x = m.page x) :
    Bare m' a d ∧ nodes target m'.entry a d = nodes target m.entry a d := by
  have he : ∀ x ∈ nodes target m.entry a d, m'.entry x = m.entry x := by
    intro x hx
    funext i
    rw [entry, entry, hp x hx]
  have hn : ∀ p : List (Fin 512), p.length ≤ d → m'.node a p = m.node a p := fun p hlen =>
    descend_congr_nodes (fun q b hq hb => he b ⟨q, hq.le, hb⟩) hlen
  refine ⟨⟨h.tree.congr hn, fun p b i hlen hb => ?_, fun p b i hlen hb => ?_⟩, nodes_congr hn⟩
  · rw [hn p hlen.le] at hb
    rw [he b ⟨p, hlen.le, hb⟩]
    exact h.link p b i hlen hb
  · rw [hn p (le_of_eq hlen)] at hb
    rw [he b ⟨p, le_of_eq hlen, hb⟩]
    exact h.bottom p b i hlen hb

theorem below_insert_of_none (hi : target (m.entry a i) = none) :
    m.below a d (insert i S) = m.below a d S := by
  ext y
  constructor
  · rintro ⟨j, rfl | hj, b, hb, hy⟩
    · rw [hi] at hb
      cases hb
    · exact ⟨j, hj, b, hb, hy⟩
  · rintro ⟨j, hj, hy⟩
    exact ⟨j, .inr hj, hy⟩

theorem below_insert_of_some (hi : target (m.entry a i) = some b) :
    m.below a d (insert i S) = m.below a d S ∪ nodes target m.entry b d := by
  ext y
  constructor
  · rintro ⟨j, rfl | hj, c, hc, hy⟩
    · rw [hi, Option.some.injEq] at hc
      subst hc
      exact .inr hy
    · exact .inl ⟨j, hj, c, hc, hy⟩
  · rintro (⟨j, hj, hy⟩ | hy)
    · exact ⟨j, .inr hj, hy⟩
    · exact ⟨i, .inl rfl, b, hi, hy⟩

theorem nodes_eq_below (m : Phys) (a d : ℕ) :
    nodes target m.entry a (d + 1) = insert a (m.below a d Set.univ) := by
  ext y
  rw [mem_nodes_succ, mem_insert_iff]
  refine or_congr_right (exists_congr (fun i => ?_))
  exact ⟨fun h => ⟨trivial, h⟩, fun h => h.2⟩

/-- The state of the loop of `freewalk` after the entries `S` of table `a`. -/
structure FreeInv (m₀ : Phys) (a d : ℕ) (F : Set ℕ) (m : Phys) (S : Set (Fin 512)) : Prop where
  pool : Pool m (F ∪ m₀.below a d S)
  within : Within m₀ m (insert a (m₀.below a d S))
  entry : ∀ i ∉ S, m.entry a i = m₀.entry a i

theorem freeEntry_zero (hi : m.entry a i = 0) : freeEntry free a m i = .ok m := by
  unfold freeEntry
  rw [hi]
  rfl

theorem freeEntry_link (hi : m.entry a i = PA2PTE b ||| PTE_V) (hb : IsPage b)
    (hf : free m b = .ok m') : freeEntry free a m i = .ok (m'.setEntry a i 0) := by
  have hflag : ∀ k < 10, hasFlag (PA2PTE b ||| PTE_V) (2 ^ k) = hasFlag PTE_V (2 ^ k) :=
    fun k hk => hasFlag_PA2PTE_or b (by decide) hk
  have hV : hasFlag (PA2PTE b ||| PTE_V) PTE_V = true := hflag 0 (by decide)
  have hR : hasFlag (PA2PTE b ||| PTE_V) PTE_R = false := hflag 1 (by decide)
  have hW : hasFlag (PA2PTE b ||| PTE_V) PTE_W = false := hflag 2 (by decide)
  have hX : hasFlag (PA2PTE b ||| PTE_V) PTE_X = false := hflag 3 (by decide)
  unfold freeEntry
  rw [hi]
  simp only [hV, hR, hW, hX]
  show (free m (PTE2PA (PA2PTE b ||| PTE_V)) >>= fun m => Except.ok (m.setEntry a i 0)) = _
  rw [PTE2PA_PA2PTE_or hb (by decide), hf, ok_bind]

theorem FreeInv.init (hp : Pool m F) : FreeInv m a d F m ∅ := by
  have hb : m.below a d ∅ = ∅ := eq_empty_iff_forall_notMem.mpr (fun y ⟨_, hc, _⟩ => hc)
  exact ⟨by rw [hb, union_empty]; exact hp, Within.refl, fun _ _ => rfl⟩

/-- **A round of `freewalk`.** What is below the next entry has not been touched
yet, so the recursive call frees it. -/
theorem FreeInv.step {s : Phys} (hfree : ∀ (s : Phys) (b : ℕ) (G : Set ℕ), Bare s b d → Pool s G →
      (∀ x ∈ nodes target s.entry b d, s.InRange x ∧ x ∉ G) →
      ∃ s', free s b = .ok s' ∧ Pool s' (G ∪ nodes target s.entry b d) ∧
        Within s s' (nodes target s.entry b d)) (h : Bare m a (d + 1))
    (hr : ∀ x ∈ nodes target m.entry a (d + 1), m.InRange x ∧ x ∉ F) (hi : i ∉ S)
    (hs : FreeInv m a d F s S) :
    ∃ s', freeEntry free a s i = .ok s' ∧ FreeInv m a d F s' (insert i S) := by
  have hentry := hs.entry i hi
  rcases h.link [] a i (Nat.succ_pos d) rfl with he | ⟨b, hb, he⟩
  · have hset := below_insert_of_none (d := d) (S := S) (show target (m.entry a i) = none by
      rw [he]; rfl)
    refine ⟨s, freeEntry_zero (hentry.trans he), ?_, ?_, fun j hj => ?_⟩
    · rw [hset]
      exact hs.pool
    · rw [hset]
      exact hs.within
    · exact hs.entry j fun hjS => hj (.inr hjS)
  · have hlink : target (m.entry a i) = some b := by rw [he]; exact target_link hb
    have hout : ∀ y ∈ nodes target m.entry b d, y ∉ insert a (m.below a d S) := by
      rintro y hy (rfl | ⟨j, hj, c, hc, hy'⟩)
      · exact h.tree.root_notMem_child hlink hy
      · have hij : i ≠ j := fun hij => hi (hij ▸ hj)
        exact h.tree.child_disjoint hij hlink hc hy hy'
    have hsub : ∀ y ∈ nodes target m.entry b d, y ∈ nodes target m.entry a (d + 1) := fun y hy =>
      mem_nodes_succ.mpr (.inr ⟨i, b, hlink, hy⟩)
    obtain ⟨hbare, hnodes⟩ := (h.child hlink).of_page (fun y hy => hs.within.page y (hout y hy))
    obtain ⟨s₁, hs₁, hp₁, hw₁⟩ := hfree s b _ hbare hs.pool (fun y hy => by
      rw [hnodes] at hy
      refine ⟨hs.within.inRange.mpr (hr y (hsub y hy)).1, ?_⟩
      rintro (hyF | hyb)
      · exact (hr y (hsub y hy)).2 hyF
      · exact hout y hy (.inr hyb))
    rw [hnodes] at hp₁ hw₁
    have hset := below_insert_of_some (d := d) (S := S) hlink
    refine ⟨s₁.setEntry a i 0, freeEntry_link (hentry.trans he) hb hs₁, ?_, ?_, fun j hj => ?_⟩
    · rw [hset, ← union_assoc]
      exact ⟨hp₁.nodup, hp₁.mem, hp₁.range⟩
    · rw [hset]
      refine (hs.within.mono (fun y hy => ?_)).trans
        ((hw₁.mono (fun y hy => .inr (.inr hy))).trans (within_setPage (.inl rfl) _))
      exact hy.elim .inl fun hy => .inr (.inl hy)
    · rw [mem_insert_iff, not_or] at hj
      have hpage : s₁.page a = s.page a := hw₁.page a (h.tree.root_notMem_child hlink)
      rw [entry_setEntry _ (by decide), update_self, update_of_ne hj.1,
        ← hs.entry j hj.2, Phys.entry, Phys.entry, hpage]

/-- **Freeing tables without translations gives every one of them back.** -/
theorem Bare.freewalk (h : Bare m a d) (hp : Pool m F)
    (hr : ∀ x ∈ nodes target m.entry a d, m.InRange x ∧ x ∉ F) :
    ∃ m', freewalk (d + 1) m a = .ok m' ∧ Pool m' (F ∪ nodes target m.entry a d) ∧
      Within m m' (nodes target m.entry a d) := by
  -- on the number of levels below
  induction d generalizing m a F with
  | zero =>
    obtain ⟨m', hfold, rfl⟩ := exists_foldlM (I := fun s _ => s = m)
      (fun s S i _ hs => ⟨s, freeEntry_zero (hs ▸ h.bottom [] a i rfl rfl), hs⟩)
      (finRange 512) (nodup_finRange 512) ∅ (fun _ _ hc => hc) m rfl
    have hra := hr a root_mem_nodes
    refine ⟨m'.kfreed a, ?_, ?_, within_kfreed root_mem_nodes⟩
    · rw [Phys.freewalk, hfold, ok_bind]
      exact kfree_of_inRange hra.1
    · rw [nodes_zero, union_singleton]
      exact hp.kfree hra.1 hra.2
  | succ d ih =>
    obtain ⟨m', hfold, hinv⟩ := exists_foldlM (I := FreeInv m a d F)
      (k := freeEntry (Phys.freewalk (d + 1)) a)
      (fun s S i hi hs => hs.step (fun s b G => ih) h hr hi)
      (finRange 512) (nodup_finRange 512) ∅ (fun _ _ hc => hc) m (FreeInv.init hp)
    have huniv : (∅ : Set (Fin 512)) ∪ {i | i ∈ finRange 512} = Set.univ := by
      ext i
      simp
    rw [huniv] at hinv
    have hra := hr a root_mem_nodes
    have hran := hinv.within.inRange.mpr hra.1
    have hkf := hinv.pool.kfree hran (by
      rintro (haF | ⟨i, -, b, hb, hy⟩)
      · exact hra.2 haF
      · exact h.tree.root_notMem_child hb hy)
    refine ⟨m'.kfreed a, ?_, ?_, ?_⟩
    · rw [Phys.freewalk, hfold, ok_bind]
      exact kfree_of_inRange hran
    · rw [nodes_eq_below, union_insert]
      exact hkf
    · rw [nodes_eq_below]
      exact hinv.within.trans (within_kfreed (.inl rfl))

/-- The three levels of a page table without translations. -/
theorem Table.bare (h : Table m pt) (hz : ∀ v < NVPN, m.pte pt v = 0) : Bare m pt 2 := by
  refine ⟨h.tree, h.link, fun p b i hp hb => ?_⟩
  obtain ⟨j, k, rfl⟩ := length_eq_two.mp hp
  -- the page whose entry this is
  have hv : j.val * 2 ^ 18 + k.val * 2 ^ 9 + i.val < NVPN := by
    show _ < 2 ^ 27
    omega
  have hpath : vpath (j.val * 2 ^ 18 + k.val * 2 ^ 9 + i.val) = [j, k] := by
    simp only [vpath, idx, cons.injEq, Fin.ext_iff, and_true]
    omega
  have hidx : idx (j.val * 2 ^ 18 + k.val * 2 ^ 9 + i.val) = i := by
    rw [idx, Fin.ext_iff]
    show _ % 512 = _
    omega
  have hpte := hz _ hv
  rwa [pte_of_node (hpath ▸ hb), hidx] at hpte

/-- **Freeing the tables of an empty address space gives the pool back.** -/
theorem Owns.freewalk (h : Owns m pt empty T F) (hT : ∀ v, UVPN ≤ v → v < NVPN → T v = 0) :
    ∃ m', freewalk 3 m pt = .ok m' ∧ Pool m' F ∧ Within m m' F := by
  have howned : m.owned pt empty = m.tables pt := by
    simp [owned, empty]
  have hbare : Bare m pt 2 := h.table.bare (fun v hv => by
    by_cases hu : v < UVPN
    · exact h.absent v hu rfl
    · rw [h.top v (not_lt.mp hu) hv, hT v (not_lt.mp hu) hv])
  have hpool : Pool m (F \ m.tables pt) :=
    ⟨h.nodup, fun x => by rw [h.free, howned]; rfl, fun x hx => h.range x hx.1⟩
  obtain ⟨m', hm', hp', hw'⟩ := hbare.freewalk hpool
    (fun x hx => ⟨h.range x (h.tables_subset hx), fun hc => hc.2 hx⟩)
  refine ⟨m', hm', ?_, hw'.mono h.tables_subset⟩
  rwa [sdiff_union_self, union_eq_self_of_subset_right h.tables_subset] at hp'

/-! ## Sizes -/

/-- The number of pages that hold the first `sz` bytes. -/
def npages (sz : ℕ) : ℕ := (sz + PGSIZE - 1) / PGSIZE

theorem le_npages_mul (sz : ℕ) : sz ≤ npages sz * PGSIZE := by
  show sz ≤ (sz + 4096 - 1) / 4096 * 4096
  omega

theorem npages_zero : npages 0 = 0 := by decide

theorem PGROUNDUP_eq (h : npages sz < 2 ^ 52) : PGROUNDUP sz = npages sz * PGSIZE := by
  have h' : (sz + 4096 - 1) / 4096 < 2 ^ 52 := h
  show (sz + 4096 - 1) % 2 ^ 64 / 4096 * 4096 = (sz + 4096 - 1) / 4096 * 4096
  omega

section

variable (h : Owns m pt A T F)
include h

/-- There are not more pages than there is memory. -/
theorem Owns.spans_le (hn : A.Spans n) : n ≤ PHYSTOP / PGSIZE := by
  have hrange : ∀ v : Fin n, m.InRange (m.frame pt v) := fun v =>
    h.range _ (h.sub (.inr ⟨v, (hn v).mpr v.isLt, rfl⟩))
  have hlt : ∀ v : Fin n, m.frame pt v / PGSIZE < PHYSTOP / PGSIZE := fun v =>
    Nat.div_lt_of_lt_mul (lt_of_lt_of_le (hrange v).2.2 (by decide))
  have hinj : Function.Injective
      (fun v : Fin n => (⟨m.frame pt v / PGSIZE, hlt v⟩ : Fin (PHYSTOP / PGSIZE))) := by
    intro v v' hvv
    have hdiv : m.frame pt v / PGSIZE = m.frame pt v' / PGSIZE := congrArg Fin.val hvv
    have heq : m.frame pt v = m.frame pt v' := by
      rw [← Nat.div_add_mod (m.frame pt v) PGSIZE, ← Nat.div_add_mod (m.frame pt v') PGSIZE,
        hdiv, (hrange v).1, (hrange v').1]
    exact Fin.ext (h.inj v v' ((hn v).mpr v.isLt) ((hn v').mpr v'.isLt) heq)
  have hcard := Fintype.card_le_of_injective _ hinj
  rwa [Fintype.card_fin, Fintype.card_fin] at hcard

theorem Owns.spans_lt (hn : A.Spans n) : n < UVPN :=
  lt_of_le_of_lt (h.spans_le hn) (by decide)

/-- What is mapped up to a size is not more than memory. -/
theorem Owns.sz_le (hn : A.Spans (npages sz)) : sz ≤ PHYSTOP :=
  calc sz ≤ npages sz * PGSIZE := le_npages_mul sz
    _ ≤ PHYSTOP / PGSIZE * PGSIZE := Nat.mul_le_mul_right _ (h.spans_le hn)
    _ ≤ PHYSTOP := Nat.div_mul_le_self _ _

theorem Owns.PGROUNDUP_eq (hn : A.Spans (npages sz)) : PGROUNDUP sz = npages sz * PGSIZE :=
  Phys.PGROUNDUP_eq (lt_trans (h.spans_lt hn) (by decide))

end

/-! ## The page table of a process -/

/-- The entries from `TRAPFRAME` on in the page table of a process. -/
def procTop (trampoline trapframe : ℕ) : ℕ → ℕ :=
  update
    (update (fun _ => 0) (MAXVPN - 1) (PA2PTE trampoline ||| (PTE_R ||| PTE_X) ||| PTE_V))
    UVPN (PA2PTE trapframe ||| (PTE_R ||| PTE_W) ||| PTE_V)

theorem isLeaf_flags (x : ℕ) (hf : IsLeaf (perm ||| PTE_V)) :
    IsLeaf (PTE_FLAGS (PA2PTE x ||| perm ||| PTE_V)) := by
  rw [Nat.or_assoc, PTE_FLAGS_PA2PTE_or hf.1]
  exact hf

instance (f : ℕ) : Decidable (IsLeaf f) := inferInstanceAs (Decidable (_ ∧ _ ∧ _))

/-- Unmapping and freeing every page. -/
theorem Owns.uvmunmap_all (h : Owns m pt A T F) (hn : A.Spans n) :
    ∃ m', m.uvmunmap pt 0 n true = .ok m' ∧ Owns m' pt empty T F ∧ Within m m' F := by
  obtain ⟨m', hm', ho', hw', -⟩ := h.unmapLoop_user (v := 0) (n := n)
    (fun u _ hu => (hn u).mpr (by omega))
  have hempty : A.unmap 0 n = empty := (hn.unmap (Nat.zero_le _)).eq_empty
  rw [hempty] at ho'
  refine ⟨m', ?_, ho', hw'⟩
  rw [uvmunmap, if_neg (fun hc => hc rfl), ← zero_mul PGSIZE]
  exact hm'

/-- **Freeing a page table without `TRAMPOLINE` and `TRAPFRAME`.** -/
theorem Owns.uvmfree (h : Owns m pt A T F) (sz : ℕ) (hn : A.Spans (npages sz))
    (hT : ∀ v, UVPN ≤ v → v < NVPN → T v = 0) :
    ∃ m', m.uvmfree pt sz = .ok m' ∧ Pool m' F ∧ Within m m' F := by
  by_cases hsz : 0 < sz
  · obtain ⟨_, hm₁, ho₁, hw₁⟩ := h.uvmunmap_all hn
    obtain ⟨m', hm', hp', hw'⟩ := ho₁.freewalk hT
    refine ⟨m', ?_, hp', hw₁.trans hw'⟩
    rw [Phys.uvmfree, if_pos hsz, h.PGROUNDUP_eq hn, Nat.mul_div_cancel _ (by decide), hm₁, ok_bind]
    exact hm'
  · have hzero : sz = 0 := Nat.eq_zero_of_not_pos hsz
    rw [hzero, npages_zero] at hn
    rw [hn.eq_empty] at h
    obtain ⟨m', hm', hp', hw'⟩ := h.freewalk hT
    refine ⟨m', ?_, hp', hw'⟩
    rw [Phys.uvmfree, if_neg hsz, ok_bind]
    exact hm'

/-- **Freeing the page table of a process gives the pool back.** -/
theorem Owns.procFreepagetable {tr : ℕ} (h : Owns m pt A (procTop tr tf) F)
    (hn : A.Spans (npages sz)) :
    ∃ m', m.procFreepagetable pt sz = .ok m' ∧ Pool m' F ∧ Within m m' F := by
  have htr : procTop tr tf (MAXVPN - 1) = PA2PTE tr ||| (PTE_R ||| PTE_X) ||| PTE_V := by
    rw [procTop, update_of_ne (by decide), update_self]
  obtain ⟨_, hm₁, ho₁, hw₁⟩ := h.uvmunmap_top (v := MAXVPN - 1) (by decide) (by decide)
    (by rw [htr]; exact isLeaf_flags tr (by decide))
  obtain ⟨_, hm₂, ho₂, hw₂⟩ := ho₁.uvmunmap_top le_rfl (by decide) (by
    rw [update_of_ne (by decide), procTop, update_self]
    exact isLeaf_flags tf (by decide))
  obtain ⟨m', hm', hp', hw'⟩ := ho₂.uvmfree sz hn (fun v _ _ => by
    by_cases hv : v = UVPN
    · rw [hv, update_self]
    · rw [update_of_ne hv]
      by_cases hv' : v = MAXVPN - 1
      · rw [hv', update_self]
      · rw [update_of_ne hv', procTop, update_of_ne hv, update_of_ne hv'])
  refine ⟨m', ?_, hp', (hw₁.trans hw₂).trans hw'⟩
  rw [Phys.procFreepagetable, show TRAMPOLINE = (MAXVPN - 1) * PGSIZE from rfl,
    show TRAPFRAME = UVPN * PGSIZE from rfl, hm₁, ok_bind, hm₂, ok_bind]
  exact hm'

theorem setPage_memset (x : ℕ) (u : UInt8) (P : Page) :
    (m.memset x u).setPage x P = m.setPage x P := by
  unfold memset setPage
  rw [update_idem]

theorem memset_memset (x : ℕ) (u u' : UInt8) : (m.memset x u).memset x u' = m.memset x u' :=
  setPage_memset x u _

/-- **A fresh page table is empty.** -/
theorem Pool.uvmcreate {rest : List ℕ} (h : Pool m F) (hx : m.freelist = x :: rest) :
    ∃ m', m.uvmcreate = (m', some x) ∧ Owns m' x empty (fun _ => 0) F ∧
      Within m m' F ∧ m'.freelist = rest ∧ ∀ i, m'.entry x i = 0 := by
  have hxF : x ∈ F := (h.mem x).mp (hx ▸ mem_cons_self)
  have hp := h.kalloc hx (fun _ => 0)
  generalize hm' : ({ m with freelist := rest } : Phys).setPage x (fun _ => 0) = m' at hp
  have hzero : ∀ i, m'.entry x i = 0 := by
    intro i
    rw [← hm', entry_setPage, update_self]
    exact Page.word_zero i
  have hnode : ∀ p a, m'.node x p = some a → p = [] ∧ a = x := by
    intro p a ha
    cases p with
    | nil => exact ⟨rfl, (Option.some.inj ha).symm⟩
    | cons =>
      rw [node, descend_cons, hzero] at ha
      cases ha
  have htab : m'.tables x = {x} := by
    ext y
    constructor
    · rintro ⟨p, -, hy⟩
      exact (hnode p y hy).2
    · rintro rfl
      exact root_mem_nodes
  have howned : m'.owned x empty = {x} := by
    simp [owned, empty, htab]
  have hpte : ∀ v, m'.pte x v = 0 := by
    intro v
    rw [pte, show m'.node x (vpath v) = none from by
      rw [vpath, node, descend_cons, hzero]
      rfl]
    rfl
  refine ⟨m', ?_, ⟨⟨⟨?_, ?_⟩, ?_, fun v _ _ => hpte v, fun v _ _ => hpte v, ?_, ?_⟩, hp.nodup, ?_,
    ?_, ?_⟩, ?_, ?_, hzero⟩
  · rw [Phys.uvmcreate, kalloc_cons hx, ← hm']
    exact congrArg (·, some x) (memset_memset x 5 0)
  · intro p q a _ _ ha ha'
    rw [(hnode p a ha).1, (hnode q a ha').1]
  · intro p a i _ ha
    rw [(hnode p a ha).2]
    exact .inl (hzero i)
  · intro v pg hv
    cases hv
  · intro v v' hv
    cases hv
  · intro v hv
    cases hv
  · intro y
    rw [hp.mem y, howned]
    rfl
  · rw [howned, singleton_subset_iff]
    exact hxF
  · intro y hy
    have hr := h.range y hy
    rw [← hm']
    exact hr
  · rw [← hm']
    exact ⟨(within_setPage hxF _).page, rfl, rfl⟩
  · rw [← hm']
    rfl

/-- **`proc_pagetable` makes an empty address space, if there are three free
pages, and otherwise leaves the pool as it was.** -/
theorem Pool.procPagetable (h : Pool m F) (htf : IsPage tf) (htr : IsPage m.trampoline) :
    ∃ m' r, m.procPagetable tf = .ok (m', r) ∧ Within m m' F ∧ (r = none → Pool m' F) ∧
      (∀ pt, r = some pt → Owns m' pt empty (procTop m.trampoline tf) F) ∧
      (r.isSome ↔ 3 ≤ m.freelist.length) := by
  cases hfl : m.freelist with
  | nil =>
    refine ⟨m, none, ?_, Within.refl, fun _ => h, (fun _ hc => by cases hc), by simp⟩
    rw [Phys.procPagetable, Phys.uvmcreate, kalloc_nil hfl]
  | cons x =>
    obtain ⟨m₁, hm₁, ho₁, hw₁, hfree₁, hzero₁⟩ := h.uvmcreate hfl
    obtain ⟨m₂, ok₂, hm₂, hw₂, hyes₂, hno₂, hiff₂⟩ := ho₁.mappages_top (v := MAXVPN - 1)
      (x := m₁.trampoline) (PTE_R ||| PTE_X) (by decide) (by decide) rfl
      (hw₁.trampoline ▸ htr) (by decide)
    rw [missing_of_zero hzero₁, vpath_length, hfree₁] at hiff₂
    rw [Phys.procPagetable, hm₁]
    simp only [show TRAMPOLINE = (MAXVPN - 1) * PGSIZE from rfl, hm₂, ok_bind]
    cases ok₂ with
    | false =>
      -- the tables for `TRAMPOLINE` could not be had
      obtain ⟨m₃, hm₃, hp₃, hw₃⟩ := (hno₂ rfl).uvmfree 0
        (by rw [npages_zero]; exact spans_empty) (fun _ _ _ => rfl)
      refine ⟨m₃, none, ?_, (hw₁.trans hw₂).trans hw₃, fun _ => hp₃, (fun _ hc => by cases hc), ?_⟩
      · rw [hm₃]
        rfl
      · rw [length_cons]
        simpa using hiff₂
    | true =>
      obtain ⟨ho₂, g, hg⟩ := hyes₂ rfl
      have hT : update (fun _ => 0) (MAXVPN - 1)
          (PA2PTE m₁.trampoline ||| (PTE_R ||| PTE_X) ||| PTE_V) UVPN = 0 := by
        rw [update_of_ne (by decide)]
      -- `TRAPFRAME` is in the same tables
      have hmiss : m₂.missing x (vpath UVPN) = 0 :=
        missing_of_node (show m₂.node x (vpath UVPN) = some g from hg)
      obtain ⟨m₃, ok₃, hm₃, hw₃, hyes₃, -, hiff₃⟩ := ho₂.mappages_top (v := UVPN) (x := tf)
        (PTE_R ||| PTE_W) le_rfl (by decide) hT htf (by decide)
      rw [hmiss] at hiff₃
      have hok₃ : ok₃ = true := hiff₃.mpr (Nat.zero_le _)
      subst hok₃
      refine ⟨m₃, some x, ?_, (hw₁.trans hw₂).trans hw₃, (fun hc => by cases hc), ?_, ?_⟩
      · rw [show TRAPFRAME = UVPN * PGSIZE from rfl, hm₃]
        rfl
      · rintro _ ⟨⟩
        have ho₃ := (hyes₃ rfl).1
        rwa [hw₁.trampoline] at ho₃
      · rw [length_cons]
        simpa using hiff₂

/-! ## A small machine -/

/-- A small memory of free pages. -/
def ram (n : ℕ) : Phys where
  page _ _ := 0
  freelist := (List.range n).map (fun i => 0x80100000 + i * PGSIZE)
  kend := 0x80100000
  trampoline := 0x80000000

theorem pool_ram (n : ℕ) (hn : n ≤ 16) : Pool (ram n) {x | x ∈ (ram n).freelist} where
  nodup := by
    refine List.Nodup.map (fun i j hij => ?_) nodup_range
    have hij' : 0x80100000 + i * 4096 = 0x80100000 + j * 4096 := hij
    omega
  mem _ := Iff.rfl
  range x hx := by
    obtain ⟨i, hi, rfl⟩ := mem_map.mp hx
    have hi' := mem_range.mp hi
    show (0x80100000 + i * 4096) % 4096 = 0 ∧ 0x80100000 ≤ 0x80100000 + i * 4096 ∧
      0x80100000 + i * 4096 < 0x88000000
    omega

end Phys

end Xv6
