import OsProject.Runs
import OsProject.SpaceOps

/-!
# What `mappages` and `uvmunmap` do to translations

A page table translates virtual pages, one entry each: `translate` is what `walk` finds.
`mappages` enters a range of pages one after the other, and stops when there is no page left
for a table; `uvmunmap` clears the entries of a range. Both are loops of one step, which
changes the translation of one page and of no other, and that is so because the tables of the
page table are a tree (`Table.setLeaf`).

`Built` are the page tables that come about in this way, from an empty one. There is one
thing to be careful about: `uvmunmap` can be told to free the pages it finds. They go to the
list that tables are taken from, so a page that is a table, or is free already, must not be
among them, nor one page twice (`Releases`).
-/

namespace Xv6

open Option

/-- A page of any address, and flags. -/
theorem PTE2PA_PA2PTE_or_of_lt {pa f : ℕ} (hal : pa % PGSIZE = 0) (hlt : pa < 2 ^ 64)
    (hf : f < 2 ^ 10) : PTE2PA (PA2PTE pa ||| f) = pa := by
  rw [PA2PTE_or hf]
  unfold PTE2PA PA2PTE
  have hal' : pa % 4096 = 0 := hal
  omega

theorem PA2PTE_or_lt_of_lt {pa f : ℕ} (hlt : pa < 2 ^ 64) (hf : f < 2 ^ 10) :
    PA2PTE pa ||| f < 2 ^ 64 := by
  rw [PA2PTE_or hf]
  unfold PA2PTE
  omega

/-- Permission bits with the valid bit. -/
theorem or_PTE_V_lt {perm : ℕ} (h : perm < 2 ^ 10) : perm ||| PTE_V < 2 ^ 10 :=
  Nat.or_lt_two_pow h (by decide)

namespace Phys

variable {m m' m₁ : Phys} {pt pa perm va v n size x npages a : ℕ} {ok alloc doFree : Bool}
  {q : ℕ × Fin 512}

/-- The translation of an address, by the entry that `walk` finds: the page it is mapped to,
with the flags. -/
def translate (m : Phys) (pt va : ℕ) : Option (ℕ × ℕ) :=
  match m.walk pt va false with
  | .ok (m, some (g, i)) =>
    if hasFlag (m.entry g i) PTE_V then some (PTE2PA (m.entry g i), PTE_FLAGS (m.entry g i))
    else none
  | _ => none

/-- What an entry says. -/
def decode (w : ℕ) : Option (ℕ × ℕ) :=
  if hasFlag w PTE_V then some (PTE2PA w, PTE_FLAGS w) else none

@[simp] theorem decode_zero : decode 0 = none := by
  rw [decode, if_neg (by decide)]

theorem translate_eq (hva : va < MAXVA) : m.translate pt va = decode (m.pte pt (va / PGSIZE)) := by
  rw [translate, walk_find hva]
  cases hg : m.node pt (vpath (va / PGSIZE)) with
  | none =>
    rw [pte, hg, elim_none, decode_zero]
    rfl
  | some =>
    rw [pte_of_node hg]
    rfl

theorem decode_mapped (hal : pa % PGSIZE = 0) (hlt : pa < 2 ^ 64) (hperm : perm < 2 ^ 10) :
    decode (PA2PTE pa ||| perm ||| PTE_V) = some (pa, perm ||| PTE_V) := by
  have hf := or_PTE_V_lt hperm
  have hv : hasFlag (PA2PTE pa ||| perm ||| PTE_V) PTE_V = true := by
    show hasFlag (PA2PTE pa ||| perm ||| 1) (2 ^ 0) = true
    rw [hasFlag_two_pow, Nat.testBit_or]
    simp
  rw [decode, if_pos hv, Nat.or_assoc, PTE2PA_PA2PTE_or_of_lt hal hlt hf, PTE_FLAGS_PA2PTE_or hf]

/-! ## Mapping -/

/-- Writing an entry of a bottom table keeps the tables, and the pages for new ones. -/
theorem Fresh.setLeaf {g w : ℕ} (h : Table m pt) (hf : Fresh m pt) (hv : v < NVPN)
    (hg : m.node pt (vpath v) = some g) (hw : w < 2 ^ 64) : Fresh (m.setEntry g (idx v) w) pt := by
  refine ⟨hf.nodup, hf.isPage, fun x hx => ?_⟩
  rw [(h.setLeaf hv hg hw).2.1]
  exact hf.notMem x hx

/-- **The loop of `mappages`.** It has entered the first `k` pages, all of them if it
succeeded; they were not mapped before. -/
theorem mapLoop_eq (h : Table m pt) (hf : Fresh m pt)
    (hpa : pa + (MAXVPN - v) * PGSIZE ≤ 2 ^ 64) (hperm : perm < 2 ^ 10)
    (hrun : mapLoop pt perm m (v * PGSIZE) pa n = .ok (m', ok)) :
    Table m' pt ∧ Fresh m' pt ∧ ∃ k ≤ n, (ok = true → k = n) ∧ (0 < k → v + k ≤ MAXVPN) ∧
      ∀ u < NVPN, if v ≤ u ∧ u < v + k then
          m'.pte pt u = PA2PTE (pa + (u - v) * PGSIZE) ||| perm ||| PTE_V ∧
            hasFlag (m.pte pt u) PTE_V = false else m'.pte pt u = m.pte pt u := by
  induction n generalizing m v pa with
  | zero =>
    cases hrun
    refine ⟨h, hf, 0, le_rfl, fun _ => rfl, fun hc => absurd hc (lt_irrefl 0), fun u _ => ?_⟩
    rw [if_neg (by omega)]
  | succ n ih =>
    by_cases hv : v < MAXVPN
    · obtain ⟨_, r, hw, hgr, hr, -⟩ := walk_alloc h hf hv
      rw [mapLoop, hw, ok_bind] at hrun
      cases r with
      | none =>
        cases hrun
        refine ⟨hgr.table, hgr.fresh, 0, Nat.zero_le _, (by rintro ⟨⟩),
          fun hc => absurd hc (lt_irrefl 0), fun u _ => ?_⟩
        rw [if_neg (by omega)]
        exact hgr.pte u
      | some q =>
        obtain ⟨_, _⟩ := q
        obtain ⟨hg, rfl⟩ := hr _ rfl
        dsimp only at hrun hg
        split_ifs at hrun with hfree
        have hvn : v < NVPN := hv.trans (by decide)
        have hlt : pa + PGSIZE + (MAXVPN - (v + 1)) * PGSIZE ≤ 2 ^ 64 := by
          rw [add_assoc, add_comm PGSIZE, ← Nat.succ_mul,
            show (MAXVPN - (v + 1)).succ = MAXVPN - v by omega]
          exact hpa
        have hwlt : PA2PTE pa ||| perm ||| PTE_V < 2 ^ 64 := by
          rw [Nat.or_assoc]
          refine PA2PTE_or_lt_of_lt (lt_of_lt_of_le ?_ hlt) (or_PTE_V_lt hperm)
          exact Nat.lt_add_right _ (Nat.lt_add_of_pos_right (by decide))
        obtain ⟨ht₂, -, -, hpte₂⟩ := hgr.table.setLeaf hvn hg hwlt
        have hold : hasFlag (m.pte pt v) PTE_V = false := by
          rw [← hgr.pte, pte_of_node hg]
          exact Bool.not_eq_true _ ▸ hfree
        rw [← Nat.succ_mul] at hrun
        obtain ⟨ht', hf', k, hk, hall, hmax, hpte⟩ :=
          ih ht₂ (hgr.fresh.setLeaf hgr.table hvn hg hwlt) hlt hrun
        refine ⟨ht', hf', k + 1, Nat.succ_le_succ hk, fun hok => by rw [hall hok], fun _ => ?_,
          fun u hu => ?_⟩
        · by_cases hk0 : 0 < k
          · have := hmax hk0
            omega
          · omega
        · have hu' := hpte u hu
          rw [hpte₂ u hu, hgr.pte u] at hu'
          by_cases huv : u = v
          · subst huv
            rw [if_neg (by omega), if_pos rfl] at hu'
            rw [if_pos (by omega), Nat.sub_self, Nat.zero_mul, Nat.add_zero]
            exact ⟨hu', hold⟩
          · rw [if_neg huv] at hu'
            split_ifs at hu' with hr
            · have hoff : pa + PGSIZE + (u - (v + 1)) * PGSIZE = pa + (u - v) * PGSIZE := by
                rw [show u - v = u - (v + 1) + 1 by omega, Nat.succ_mul]
                omega
              rw [if_pos (by omega), ← hoff]
              exact hu'
            · rw [if_neg (by omega)]
              exact hu'
    · rw [mapLoop, walk, if_pos] at hrun
      · cases hrun
      · show 2 ^ 38 ≤ v * 4096
        have hv' : 2 ^ 26 ≤ v := not_lt.mp hv
        omega

/-- **What `mappages` does**: it has entered the first `k` pages of the range, all of them if
it succeeded, and has changed nothing else. -/
theorem mappages_eq (h : Table m pt) (hf : Fresh m pt) (hpa : pa < 2 ^ 56) (hperm : perm < 2 ^ 10)
    (hrun : m.mappages pt va size pa perm = .ok (m', ok)) :
    Table m' pt ∧ Fresh m' pt ∧ va % PGSIZE = 0 ∧ size % PGSIZE = 0 ∧ ∃ k ≤ size / PGSIZE,
      (ok = true → k = size / PGSIZE) ∧ (0 < k → va / PGSIZE + k ≤ MAXVPN) ∧
      ∀ u < NVPN, if va / PGSIZE ≤ u ∧ u < va / PGSIZE + k then
          m'.pte pt u = PA2PTE (pa + (u - va / PGSIZE) * PGSIZE) ||| perm ||| PTE_V ∧
            hasFlag (m.pte pt u) PTE_V = false else m'.pte pt u = m.pte pt u := by
  unfold mappages at hrun
  split_ifs at hrun with hva hsize h0
  rw [not_not] at hva hsize
  rw [← Nat.div_mul_cancel (Nat.dvd_of_mod_eq_zero hva)] at hrun
  have hlt : pa + (MAXVPN - va / PGSIZE) * PGSIZE ≤ 2 ^ 64 := by
    have hmax : (MAXVPN - va / PGSIZE) * 4096 ≤ 2 ^ 26 * 4096 :=
      Nat.mul_le_mul_right _ (Nat.sub_le _ _)
    show pa + (MAXVPN - va / PGSIZE) * 4096 ≤ 2 ^ 64
    omega
  obtain ⟨ht, hf', hk⟩ := mapLoop_eq h hf hlt hperm hrun
  exact ⟨ht, hf', hva, hsize, hk⟩

/-! ## Unmapping -/

/-- The pages `v`, …, `v + n - 1` may be freed: what they are mapped to is not a table and not
free, and no two of them are mapped to the same. -/
structure Releases (m : Phys) (pt v n : ℕ) : Prop where
  table : ∀ u, v ≤ u → u < v + n → m.frame pt u ∉ m.tables pt
  free : ∀ u, v ≤ u → u < v + n → m.frame pt u ∉ m.freelist
  inj : ∀ u u', v ≤ u → u < u' → u' < v + n → m.frame pt u ≠ m.frame pt u'

/-- A page that is freed and is not a table. -/
theorem Table.kfreed (h : Table m pt) (hf : Fresh m pt) (hx : x ∉ m.tables pt)
    (hfree : x ∉ m.freelist) (hpage : IsPage x) :
    Table (m.kfreed x) pt ∧ Fresh (m.kfreed x) pt ∧ (m.kfreed x).tables pt = m.tables pt ∧
      (∀ p, p.length ≤ 2 → (m.kfreed x).node pt p = m.node pt p) ∧
      ∀ v, (m.kfreed x).pte pt v = m.pte pt v := by
  have hp : ∀ y ∈ m.tables pt, (m.kfreed x).page y = m.page y := by
    intro y hy
    have hne : y ≠ x := fun he => hx (he ▸ hy)
    rw [page_kfreed, Function.update_of_ne hne]
  obtain ⟨ht, htab, hn, hpte⟩ := h.of_page _ hp
  refine ⟨ht, ⟨List.nodup_cons.mpr ⟨hfree, hf.nodup⟩, fun y hy => ?_, fun y hy => ?_⟩, htab, hn,
    hpte⟩
  · rcases List.mem_cons.mp hy with rfl | hy
    · exact hpage
    · exact hf.isPage y hy
  · rw [htab]
    rcases List.mem_cons.mp hy with rfl | hy
    · exact hx
    · exact hf.notMem y hy

/-- What `kfree` accepts. -/
theorem inRange_of_kfree (h : m.kfree x = .ok m') : m.InRange x ∧ m' = m.kfreed x := by
  unfold kfree at h
  split_ifs at h with hbad
  rw [not_or, not_or, not_not, not_lt, not_le] at hbad
  exact ⟨hbad, (Except.ok.inj h).symm⟩

/-- One round of `uvmunmap` that succeeds. -/
theorem exists_of_unmapLoop (hrun : unmapLoop pt doFree m (v * PGSIZE) (n + 1) = .ok m') :
    v < MAXVPN ∧ ∃ g m₁, m.node pt (vpath v) = some g ∧
      (if doFree then m.kfree (m.frame pt v) else .ok m) = .ok m₁ ∧
      unmapLoop pt doFree (m₁.setEntry g (idx v) 0) ((v + 1) * PGSIZE) n = .ok m' := by
  by_cases hv : v < MAXVPN
  · rw [unmapLoop, walk_page hv, ok_bind] at hrun
    cases hg : m.node pt (vpath v) with
    | none =>
      rw [hg] at hrun
      cases hrun
    | some g =>
      rw [hg] at hrun
      simp only [map_some, ← pte_of_node hg] at hrun
      split at hrun
      · cases hrun
      · split at hrun
        · cases hrun
        · rw [← Nat.succ_mul] at hrun
          refine ⟨hv, g, ?_⟩
          cases doFree with
          | true =>
            obtain ⟨m₁, hm₁, hrun⟩ := exists_of_bind_eq_ok hrun
            exact ⟨m₁, rfl, hm₁, hrun⟩
          | false => exact ⟨m, rfl, rfl, hrun⟩
  · rw [unmapLoop, walk, if_pos] at hrun
    · cases hrun
    · show 2 ^ 38 ≤ v * 4096
      have hv' : 2 ^ 26 ≤ v := not_lt.mp hv
      omega

/-- Only pages below `MAXVA` can be unmapped. -/
theorem le_of_unmapLoop (hrun : unmapLoop pt doFree m (v * PGSIZE) n = .ok m') (hn : 0 < n) :
    v + n ≤ MAXVPN := by
  induction n generalizing m v with
  | zero => exact absurd hn (lt_irrefl 0)
  | succ n ih =>
    obtain ⟨_, _, _, -, -, hrun⟩ := exists_of_unmapLoop hrun
    by_cases hn0 : 0 < n
    · have hle := ih hrun hn0
      omega
    · omega

/-- **The loop of `uvmunmap`** clears the entries of its range. -/
theorem unmapLoop_eq (h : Table m pt) (hf : Fresh m pt) (hrel : doFree = true → m.Releases pt v n)
    (hrun : unmapLoop pt doFree m (v * PGSIZE) n = .ok m') : Table m' pt ∧ Fresh m' pt ∧
      ∀ u < NVPN, m'.pte pt u = if v ≤ u ∧ u < v + n then 0 else m.pte pt u := by
  induction n generalizing m v with
  | zero =>
    cases hrun
    refine ⟨h, hf, fun u _ => ?_⟩
    rw [if_neg (by omega)]
  | succ n ih =>
    have hmax : v + (n + 1) ≤ MAXVPN := le_of_unmapLoop hrun (Nat.succ_pos n)
    obtain ⟨hv, g, m₁, hg, hm₁, hrun⟩ := exists_of_unmapLoop hrun
    have hvn : v < NVPN := hv.trans (by decide)
    -- the page is given back, if that was asked for, and then the entry is cleared
    have hfreed : Table m₁ pt ∧ Fresh m₁ pt ∧ m₁.tables pt = m.tables pt ∧
        m₁.node pt (vpath v) = some g ∧ (∀ u, m₁.pte pt u = m.pte pt u) ∧
        (doFree = true → m₁.freelist = m.frame pt v :: m.freelist) := by
      cases doFree with
      | false =>
        cases hm₁
        exact ⟨h, hf, rfl, hg, fun _ => rfl, nofun⟩
      | true =>
        obtain ⟨hr, rfl⟩ := inRange_of_kfree hm₁
        have hR := hrel rfl
        obtain ⟨ht, hf', htab, hn, hpte⟩ := h.kfreed hf (hR.table v le_rfl (by omega))
          (hR.free v le_rfl (by omega)) hr.isPage
        exact ⟨ht, hf', htab, (hn _ (le_of_eq vpath_length)).trans hg, hpte, fun _ => rfl⟩
    obtain ⟨ht₁, hf₁, htab₁, hg₁, hpte₁, hlist⟩ := hfreed
    obtain ⟨ht₂, htab₂, -, hpte₂⟩ := ht₁.setLeaf hvn hg₁ (w := 0) (by decide)
    have hframe : ∀ u, v < u → u < v + 1 + n →
        (m₁.setEntry g (idx v) 0).frame pt u = m.frame pt u := by
      intro u hu hun
      have hlt : u < NVPN := lt_of_lt_of_le (by omega) (hmax.trans (by decide))
      rw [frame, hpte₂ u hlt, if_neg (ne_of_gt hu), hpte₁ u]
      rfl
    have hrel₂ : doFree = true → (m₁.setEntry g (idx v) 0).Releases pt (v + 1) n := by
      intro hd
      have hR := hrel hd
      refine ⟨fun u hu hun => ?_, fun u hu hun => ?_, fun u u' hu huu hun => ?_⟩
      · rw [hframe u hu hun, htab₂, htab₁]
        exact hR.table u (by omega) (by omega)
      · rw [hframe u hu hun, setEntry_freelist, hlist hd, List.mem_cons, not_or]
        exact ⟨(hR.inj v u le_rfl hu (by omega)).symm, hR.free u (by omega) (by omega)⟩
      · rw [hframe u hu (by omega), hframe u' (by omega) hun]
        exact hR.inj u u' (by omega) huu (by omega)
    obtain ⟨ht', hf', hpte⟩ := ih ht₂ (hf₁.setLeaf ht₁ hvn hg₁ (by decide)) hrel₂ hrun
    refine ⟨ht', hf', fun u hu => ?_⟩
    rw [hpte u hu, hpte₂ u hu, hpte₁ u]
    by_cases huv : u = v
    · rw [if_neg (by omega), if_pos huv, if_pos (by omega)]
    · rw [if_neg huv]
      refine if_congr ?_ rfl rfl
      omega

/-- **What `uvmunmap` does**: it clears the entries of its range, and changes nothing else. -/
theorem uvmunmap_eq (h : Table m pt) (hf : Fresh m pt)
    (hrel : doFree = true → m.Releases pt (va / PGSIZE) npages)
    (hrun : m.uvmunmap pt va npages doFree = .ok m') :
    Table m' pt ∧ Fresh m' pt ∧ va % PGSIZE = 0 ∧ ∀ u < NVPN, m'.pte pt u =
      if va / PGSIZE ≤ u ∧ u < va / PGSIZE + npages then 0 else m.pte pt u := by
  unfold uvmunmap at hrun
  split_ifs at hrun with hva
  rw [not_not] at hva
  rw [← Nat.div_mul_cancel (Nat.dvd_of_mod_eq_zero hva)] at hrun
  obtain ⟨ht, hf', hpte⟩ := unmapLoop_eq h hf hrel hrun
  exact ⟨ht, hf', hva, hpte⟩

/-! ## Page tables that were built by these functions -/

/-- A call on a page table. -/
inductive PtCall where
  | walk (va : ℕ) (alloc : Bool)
  | mappages (va size pa perm : ℕ)
  | uvmunmap (va npages : ℕ) (doFree : Bool)

namespace PtCall

/-- The memory after a call, unless it panics. -/
def exec (pt : ℕ) (m : Phys) : PtCall → Option Phys
  | walk va alloc => (m.walk pt va alloc).toOption.map Prod.fst
  | mappages va size pa perm => (m.mappages pt va size pa perm).toOption.map Prod.fst
  | uvmunmap va npages doFree => (m.uvmunmap pt va npages doFree).toOption

/-- What is mapped is a page of physical memory, with permission bits. -/
def Legal : PtCall → Prop
  | mappages _ _ pa perm => IsPage pa ∧ perm < 2 ^ 10
  | _ => True

instance (c : PtCall) : Decidable c.Legal := by
  cases c <;> unfold Legal IsPage <;> infer_instance

/-- What may be freed. -/
def Frees (pt : ℕ) (m : Phys) : PtCall → Prop
  | uvmunmap va npages true => m.Releases pt (va / PGSIZE) npages
  | _ => True

/-- Whether pages are freed. -/
private def frees : PtCall → Bool
  | uvmunmap _ _ doFree => doFree
  | _ => false

private theorem frees_of_eq_false (c : PtCall) (pt : ℕ) (m : Phys) (h : c.frees = false) :
    c.Frees pt m := by
  cases c with
  | walk | mappages => trivial
  | uvmunmap va npages doFree =>
    obtain rfl : doFree = false := h
    trivial

end PtCall

/-- A walk, for whatever address. -/
theorem table_walk {r : Option (ℕ × Fin 512)} (h : Table m pt) (hf : Fresh m pt)
    (hrun : m.walk pt va alloc = .ok (m', r)) : Table m' pt ∧ Fresh m' pt := by
  cases alloc with
  | false =>
    by_cases hva : va < MAXVA
    · rw [walk_find hva] at hrun
      cases hrun
      exact ⟨h, hf⟩
    · rw [walk, if_pos (not_lt.mp hva)] at hrun
      cases hrun
  | true =>
    unfold walk at hrun
    split_ifs at hrun with hva
    rw [PX_path] at hrun
    obtain ⟨_, _, hw, hgr, -⟩ :=
      walkLevels_alloc (p := []) h hf (vpath (va / PGSIZE)) (le_of_eq vpath_length) rfl
    rw [hw] at hrun
    cases hrun
    exact ⟨hgr.table, hgr.fresh⟩

/-- **What was built is a page table**, if nothing was freed that must not be. -/
theorem table_of_runs {m₀ : Phys} {F : Set ℕ} (hp : Pool m₀ F) (hc : m₀.uvmcreate = (m₁, some pt))
    (hrun : Lts.Runs (PtCall.exec pt) (fun m c => c.Legal ∧ c.Frees pt m) m₁ m) :
    Table m pt ∧ Fresh m pt := by
  refine hrun.invariant (I := fun m => Table m pt ∧ Fresh m pt) ?_ fun m c m' h hok hs => ?_
  · cases hfl : m₀.freelist with
    | nil =>
      rw [uvmcreate, kalloc_nil hfl] at hc
      cases hc
    | cons =>
      obtain ⟨m', hm', ho, -⟩ := hp.uvmcreate hfl
      rw [hm'] at hc
      obtain ⟨rfl, he⟩ := Prod.mk.inj hc
      cases he
      exact ⟨ho.table, ho.fresh⟩
  · obtain ⟨ht, hf⟩ := h
    obtain ⟨hlegal, hfrees⟩ := hok
    cases c with
    | walk =>
      obtain ⟨⟨m'', _⟩, hr, rfl⟩ := map_eq_some_iff.mp hs
      exact table_walk ht hf (eq_ok_of_toOption hr)
    | mappages =>
      obtain ⟨⟨m'', _⟩, hr, rfl⟩ := map_eq_some_iff.mp hs
      obtain ⟨ht', hf', -⟩ := mappages_eq ht hf hlegal.1.2 hlegal.2 (eq_ok_of_toOption hr)
      exact ⟨ht', hf'⟩
    | uvmunmap va npages doFree =>
      have hrel : doFree = true → m.Releases pt (va / PGSIZE) npages := by
        rintro rfl
        exact hfrees
      obtain ⟨ht', hf', -⟩ := uvmunmap_eq ht hf hrel (eq_ok_of_toOption hs)
      exact ⟨ht', hf'⟩

/-! ## The finite map -/

/-- Where an address is in the range of pages from `va` on. -/
theorem div_mem_range (hva : va % PGSIZE = 0) :
    va / PGSIZE ≤ a / PGSIZE ∧ a / PGSIZE < va / PGSIZE + n ↔ va ≤ a ∧ a < va + n * PGSIZE := by
  have hva' : va % 4096 = 0 := hva
  show va / 4096 ≤ a / 4096 ∧ a / 4096 < va / 4096 + n ↔ va ≤ a ∧ a < va + n * 4096
  omega

theorem div_lt_of_lt (ha : a < MAXVA) : a / PGSIZE < NVPN := by
  have ha' : a < 2 ^ 38 := ha
  show a / 4096 < 2 ^ 27
  omega

/-- **`mappages` extends the map**, or leaves what was mapped as it was. -/
theorem translate_mappages (h : Table m pt) (hf : Fresh m pt) (hpa : IsPage pa)
    (hperm : perm < 2 ^ 10) (hrun : m.mappages pt va size pa perm = .ok (m', ok)) : (ok = true →
      (∀ k < size / PGSIZE,
        m'.translate pt (va + k * PGSIZE) = some (pa + k * PGSIZE, perm ||| PTE_V)) ∧
      ∀ a < MAXVA, ¬ (va ≤ a ∧ a < va + size) → m'.translate pt a = m.translate pt a) ∧
    ∀ a < MAXVA, (m.translate pt a).isSome → m'.translate pt a = m.translate pt a := by
  obtain ⟨-, -, hva, hsize, k, -, hall, hmax, hpte⟩ := mappages_eq h hf hpa.2 hperm hrun
  have hsize' : size / PGSIZE * PGSIZE = size := Nat.div_mul_cancel (Nat.dvd_of_mod_eq_zero hsize)
  refine ⟨fun hok => ⟨fun j hj => ?_, fun a ha hout => ?_⟩, fun a ha hsome => ?_⟩
  · rw [hall hok] at hmax hpte
    have hlt : va / PGSIZE + j < MAXVPN := lt_of_lt_of_le (by omega) (hmax (by omega))
    have hdiv : (va + j * PGSIZE) / PGSIZE = va / PGSIZE + j :=
      Nat.add_mul_div_right _ _ (by decide)
    have hj' := hpte (va / PGSIZE + j) (hlt.trans (by decide))
    rw [if_pos (by omega), Nat.add_sub_cancel_left] at hj'
    have hal : (pa + j * PGSIZE) % PGSIZE = 0 := by
      rw [Nat.add_mul_mod_self_right]
      exact hpa.1
    have hpa' : pa < 2 ^ 56 := hpa.2
    have hj64 : pa + j * PGSIZE < 2 ^ 64 := by
      have hj26 : j < 2 ^ 26 := lt_of_le_of_lt (Nat.le_add_left j _) hlt
      show pa + j * 4096 < 2 ^ 64
      omega
    rw [translate_eq, hdiv, hj'.1, decode_mapped hal hj64 hperm]
    have hlt' : va / 4096 + j < 2 ^ 26 := hlt
    show va + j * 4096 < 2 ^ 38
    omega
  · have hu := hpte (a / PGSIZE) (div_lt_of_lt ha)
    rw [hall hok, if_neg (by rw [div_mem_range hva, hsize']; exact hout)] at hu
    rw [translate_eq ha, translate_eq ha, hu]
  · have hu := hpte (a / PGSIZE) (div_lt_of_lt ha)
    by_cases hr : va / PGSIZE ≤ a / PGSIZE ∧ a / PGSIZE < va / PGSIZE + k
    · -- what was mapped is not in the part that was entered
      rw [if_pos hr] at hu
      rw [translate_eq ha, decode, if_neg (by rw [hu.2]; decide)] at hsome
      cases hsome
    · rw [if_neg hr] at hu
      rw [translate_eq ha, translate_eq ha, hu]

/-- **`uvmunmap` removes its range.** -/
theorem translate_uvmunmap (h : Table m pt) (hf : Fresh m pt)
    (hrel : doFree = true → m.Releases pt (va / PGSIZE) npages)
    (hrun : m.uvmunmap pt va npages doFree = .ok m') (a : ℕ) (ha : a < MAXVA) : m'.translate pt a =
      if va ≤ a ∧ a < va + npages * PGSIZE then none else m.translate pt a := by
  obtain ⟨-, -, hva, hpte⟩ := uvmunmap_eq h hf hrel hrun
  rw [translate_eq ha, hpte _ (div_lt_of_lt ha)]
  simp only [div_mem_range hva]
  split_ifs with hr
  · exact decode_zero
  · exact (translate_eq ha).symm

/-- **Different pages have different entries.** -/
theorem div_eq_of_walk {b : ℕ} {m₂ : Phys} (h : Table m pt)
    (ha : m.walk pt a false = .ok (m₁, some q)) (hb : m.walk pt b false = .ok (m₂, some q)) :
    a / PGSIZE = b / PGSIZE := by
  have hlt : ∀ {c : ℕ} {m' : Phys}, m.walk pt c false = .ok (m', some q) → c < MAXVA := by
    intro c m' hc
    by_contra hge
    rw [walk, if_pos (not_lt.mp hge)] at hc
    cases hc
  have ha' := hlt ha
  have hb' := hlt hb
  rw [walk_find ha'] at ha
  rw [walk_find hb'] at hb
  obtain ⟨_, hg, rfl⟩ := map_eq_some_iff.mp (Prod.mk.inj (Except.ok.inj ha)).2
  obtain ⟨g', hg', he⟩ := map_eq_some_iff.mp (Prod.mk.inj (Except.ok.inj hb)).2
  obtain ⟨rfl, hi⟩ := Prod.mk.inj he
  have hp : vpath (a / PGSIZE) = vpath (b / PGSIZE) :=
    h.tree _ _ g' (le_of_eq vpath_length) (le_of_eq vpath_length) hg hg'
  exact eq_of_vpath (div_lt_of_lt ha') (div_lt_of_lt hb') hp hi.symm

/-- **Page tables are finite maps.** In whatever order a page table was walked, mapped and
unmapped, if what `uvmunmap` was told to free could be freed: `mappages` enters its range and
changes no other translation, and none that existed if it fails; `uvmunmap` removes its range;
and different pages have different entries. -/
theorem pagetable_is_map {m₀ m₁ m : Phys} {F : Set ℕ} {pt : ℕ} (hp : Pool m₀ F)
    (hc : m₀.uvmcreate = (m₁, some pt))
    (hrun : Lts.Runs (PtCall.exec pt) (fun m c => c.Legal ∧ c.Frees pt m) m₁ m) :
    (∀ va size pa perm m' ok, IsPage pa → perm < 2 ^ 10 →
      m.mappages pt va size pa perm = .ok (m', ok) → (ok = true → (∀ k < size / PGSIZE,
          m'.translate pt (va + k * PGSIZE) = some (pa + k * PGSIZE, perm ||| PTE_V)) ∧
        ∀ a < MAXVA, ¬ (va ≤ a ∧ a < va + size) → m'.translate pt a = m.translate pt a) ∧
      ∀ a < MAXVA, (m.translate pt a).isSome → m'.translate pt a = m.translate pt a) ∧
    (∀ va npages doFree m', (doFree = true → m.Releases pt (va / PGSIZE) npages) →
      m.uvmunmap pt va npages doFree = .ok m' → ∀ a < MAXVA, m'.translate pt a =
        if va ≤ a ∧ a < va + npages * PGSIZE then none else m.translate pt a) ∧
    ∀ a b ma mb q, m.walk pt a false = .ok (ma, some q) → m.walk pt b false = .ok (mb, some q) →
      a / PGSIZE = b / PGSIZE := by
  obtain ⟨ht, hf⟩ := table_of_runs hp hc hrun
  refine ⟨fun va size pa perm m' ok hpa hperm hmap => translate_mappages ht hf hpa hperm hmap,
    fun va npages doFree m' hrel hunmap => translate_uvmunmap ht hf hrel hunmap,
    fun a b ma mb q ha hb => div_eq_of_walk ht ha hb⟩

/-- The entry of an address. -/
private def leaf (m : Phys) (pt va : ℕ) : Option (ℕ × Fin 512) :=
  (m.walk pt va false).toOption.bind Prod.snd

private theorem walk_of_leaf (h : leaf m pt va = some q) :
    ∃ m', m.walk pt va false = .ok (m', some q) := by
  obtain ⟨⟨m', _⟩, hr, hq⟩ := bind_eq_some_iff.mp h
  exact ⟨m', hq ▸ eq_ok_of_toOption hr⟩

/-- Two pages are mapped, one of them is unmapped, and then a range of three pages is mapped
over a table that is still to be made. -/
theorem pagetable_is_map_small :
    ∃ m m' : Phys, Lts.Runs (PtCall.exec 0x80100000) (fun m c => c.Legal ∧ c.Frees 0x80100000 m)
        ((ram 8).uvmcreate).1 m ∧
      m.mappages 0x80100000 (511 * PGSIZE) (3 * PGSIZE) 0x80300000 PTE_R = .ok (m', true) ∧
      m'.translate 0x80100000 (513 * PGSIZE) = some (0x80300000 + 2 * PGSIZE, PTE_R ||| PTE_V) ∧
      m'.translate 0x80100000 0 = m.translate 0x80100000 0 := by
  obtain ⟨m, hrun, ⟨m', -⟩, hmap, rfl⟩ : ∃ m ∈ Lts.runIf (PtCall.exec 0x80100000)
      (fun _ c => c.Legal ∧ c.frees = false) ((ram 8).uvmcreate).1
      [.mappages 0 (2 * PGSIZE) 0x80200000 (PTE_R ||| PTE_W), .uvmunmap PGSIZE 1 false],
      ∃ r ∈ (m.mappages 0x80100000 (511 * PGSIZE) (3 * PGSIZE) 0x80300000 PTE_R).toOption,
        r.2 = true := by decide +kernel
  replace hmap := eq_ok_of_toOption hmap
  have hrun' : Lts.Runs (PtCall.exec 0x80100000) (fun m c => c.Legal ∧ c.Frees 0x80100000 m)
      ((ram 8).uvmcreate).1 m :=
    (Lts.runs_of_runIf hrun).mono (fun m c hc => ⟨hc.1, c.frees_of_eq_false 0x80100000 m hc.2⟩)
  have hmapped := ((pagetable_is_map (pool_ram 8 (by decide)) rfl hrun').1 _ _ _ _ _ _
    ⟨by decide, by decide⟩ (by decide) hmap).1 rfl
  exact ⟨m, m', hrun', hmap, hmapped.1 2 (by decide), hmapped.2 0 (by decide) (by decide)⟩

/-- **A page freed twice becomes two tables.** One physical page is mapped at pages 0 and 1,
and `uvmunmap` is told to free it from both: it is then twice on the free list, the tables for
two different ranges are both this page, and their pages share entries. -/
theorem shared_entry_of_double_free :
    ∃ (m₀ m₁ m : Phys) (F : Set ℕ) (pt : ℕ), Pool m₀ F ∧ m₀.uvmcreate = (m₁, some pt) ∧
      Lts.Runs (PtCall.exec pt) (fun _ c => c.Legal) m₁ m ∧
      ∃ a b ma mb q, m.walk pt a false = .ok (ma, some q) ∧
        m.walk pt b false = .ok (mb, some q) ∧ a / PGSIZE ≠ b / PGSIZE := by
  obtain ⟨m, hrun, ha, hb⟩ : ∃ m ∈ Lts.runIf (PtCall.exec 0x80100000) (fun _ c => c.Legal)
      ((ram 3).uvmcreate).1
      [.mappages 0 PGSIZE 0x80200000 (PTE_R ||| PTE_W),
        .mappages PGSIZE PGSIZE 0x80200000 (PTE_R ||| PTE_W), .uvmunmap 0 2 true,
        .walk (512 * PGSIZE) true, .walk (1024 * PGSIZE) true],
      leaf m 0x80100000 (512 * PGSIZE) = some (0x80200000, 0) ∧
      leaf m 0x80100000 (1024 * PGSIZE) = some (0x80200000, 0) := by decide +kernel
  obtain ⟨ma, ha⟩ := walk_of_leaf ha
  obtain ⟨mb, hb⟩ := walk_of_leaf hb
  exact ⟨ram 3, _, m, _, 0x80100000, pool_ram 3 (by decide), rfl, Lts.runs_of_runIf hrun, _, _, ma,
    mb, _, ha, hb, by decide⟩

end Phys

end Xv6
