import OsProject.Sbrk
import OsProject.SpawnForkExec

/-!
# Who owns which page

Every page of memory that `kalloc` gave out is part of one process, as its trapframe, as
a table of its page table or as memory that it has mapped, or it is a page of the kernel,
such as the buffer of a pipe; the others are free. `Isolated` says this of a memory, given
where the processes keep theirs: free pages, pages of the kernel and those of each process
are apart from each other.

A call moves pages between the free list and one of the others. What it does otherwise has
been said in the modules before; here it only matters which pages it touches. Those that
change the memory of one process are all instances of `Isolated.rehouse` and
`Isolated.vacate`.
-/

namespace Xv6

open Function (update update_idem update_of_ne update_self)

open Phys Set Option

/-- Where a process has its memory, and how much. -/
structure Home where
  pagetable : ℕ
  trapframe : ℕ
  sz : ℕ

/-- The home of a process, if it has one. -/
def System.Proc.home (P : System.Proc) : Option Home :=
  match P.pagetable, P.trapframe with
  | some pt, some tf => some ⟨pt, tf, P.sz⟩
  | _, _ => none

/-- Who can own a page. -/
inductive Owner
  | free
  | kernel
  | slot (q : Slot)

namespace Phys

variable {m m' : Phys} {a : Home} {A : AddrSpace} {L L' : Slot → Option Home} {K K' F : Set ℕ}
  {q : Slot} {x : ℕ} {o : Owner}

/-- The pages of a process. -/
def pagesOf (m : Phys) (a : Home) : Set ℕ :=
  insert a.trapframe (m.owned a.pagetable (m.userPages a.pagetable))

/-- What each of the owners owns. -/
def owns (m : Phys) (L : Slot → Option Home) (K : Set ℕ) : Owner → Set ℕ
  | .free => m.free
  | .kernel => K
  | .slot q => (L q).elim ∅ m.pagesOf

/-- A process lives there, with the address space `A`. -/
structure Houses (m : Phys) (a : Home) (A : AddrSpace) : Prop where
  space : m.Space a.pagetable A (procTop m.trampoline a.trapframe)
  spans : A.Spans (npages a.sz)
  sep : a.trapframe ∉ m.owned a.pagetable A

/-- **Every page has one owner.** The processes have their homes as `L` says, and the
kernel uses the pages in `K`. -/
structure Isolated (m : Phys) (L : Slot → Option Home) (K : Set ℕ) : Prop where
  nodup : m.freelist.Nodup
  trampoline : IsPage m.trampoline
  range : ∀ o, ∀ x ∈ m.owns L K o, m.InRange x
  apart : Ownership.Apart (m.owns L K)
  housed : ∀ q a, L q = some a → ∃ A, m.Houses a A

theorem Houses.pagesOf_eq (h : m.Houses a A) :
    m.pagesOf a = insert a.trapframe (m.owned a.pagetable A) := by
  rw [pagesOf, h.space.userPages]

/-- A process that keeps its pages as they are keeps its home. -/
theorem Houses.of_page (h : m.Houses a A) (htr : m'.trampoline = m.trampoline)
    (hp : ∀ x ∈ m.pagesOf a, m'.page x = m.page x) :
    m'.Houses a A ∧ m'.pagesOf a = m.pagesOf a := by
  rw [h.pagesOf_eq] at hp
  obtain ⟨hs, howned, -⟩ := h.space.of_page m' (fun x hx => hp x (mem_insert_of_mem _ hx))
  have hh : m'.Houses a A := by
    refine ⟨?_, h.spans, ?_⟩
    · rw [htr]
      exact hs
    · rw [howned]
      exact h.sep
  exact ⟨hh, by rw [hh.pagesOf_eq, h.pagesOf_eq, howned]⟩

theorem mem_owns_slot (hq : L q = some a) : x ∈ m.owns L K (.slot q) ↔ x ∈ m.pagesOf a := by
  rw [owns, hq]
  rfl

namespace Isolated

theorem pool (h : Isolated m L K) : m.Pool m.free :=
  ⟨h.nodup, fun _ => Iff.rfl, h.range .free⟩

/-- What a process or the kernel owns is not free. -/
theorem not_free (h : Isolated m L K) {o : Owner} (hx : x ∈ m.owns L K o) (ho : o ≠ .free) :
    x ∉ m.freelist := fun hc => ho (h.apart.eq hx (show x ∈ m.owns L K .free from hc))

theorem kernel_not_free (h : Isolated m L K) (hx : x ∈ K) : x ∉ m.freelist :=
  h.not_free (o := .kernel) hx nofun

/-- **An exchange of pages** between some of the owners. The memory of a process that has
no part in it is not touched. -/
theorem exchange (h : Isolated m L K) (S : Set Owner)
    (hw : Within m m' (Ownership.together (m.owns L K) S)) (hnodup : m'.freelist.Nodup)
    (hout : ∀ o ∉ S, match o with
      | .free => m'.freelist = m.freelist
      | .kernel => K' = K
      | .slot q => L' q = L q)
    (hin : ∀ o ∈ S, m'.owns L' K' o ⊆ Ownership.together (m.owns L K) S)
    (hdis : ∀ o ∈ S, ∀ o' ∈ S, o ≠ o' → Disjoint (m'.owns L' K' o) (m'.owns L' K' o'))
    (hhoused : ∀ q, .slot q ∈ S → ∀ a, L' q = some a → ∃ A, m'.Houses a A) :
    Isolated m' L' K' := by
  -- a process that has no part in the exchange
  have hkeep : ∀ q, .slot q ∉ S → ∀ a A, L q = some a → m.Houses a A →
      m'.Houses a A ∧ m'.pagesOf a = m.pagesOf a := by
    intro q hq a A ha hh
    refine hh.of_page hw.trampoline fun x hx => hw.page x ?_
    exact h.apart.notMem_together hq ((mem_owns_slot ha).mpr hx)
  have hsame : ∀ o ∉ S, m'.owns L' K' o = m.owns L K o := by
    intro o ho
    cases o with
    | free =>
      have hf : m'.freelist = m.freelist := hout .free ho
      rw [owns, owns, Phys.free, hf]
    | kernel => exact hout .kernel ho
    | slot q =>
      have hL : L' q = L q := hout (.slot q) ho
      rw [owns, owns, hL]
      cases ha : L q with
      | none => rw [elim_none, elim_none]
      | some a =>
        obtain ⟨A, hh⟩ := h.housed q a ha
        rw [elim_some, elim_some, (hkeep q ho a A ha hh).2]
  have htogether : ∀ x ∈ Ownership.together (m.owns L K) S, m.InRange x := by
    rintro x ⟨o, -, hx⟩
    exact h.range o x hx
  refine ⟨hnodup, ?_, fun o x hx => hw.inRange.mpr ?_, h.apart.exchange S hsame hin hdis,
    fun q a ha => ?_⟩
  · rw [hw.trampoline]
    exact h.trampoline
  · by_cases ho : o ∈ S
    · exact htogether x (hin o ho hx)
    · exact h.range o x (hsame o ho ▸ hx)
  · by_cases hq : .slot q ∈ S
    · exact hhoused q hq a ha
    · have hL : L' q = L q := hout (.slot q) hq
      rw [hL] at ha
      obtain ⟨A, hh⟩ := h.housed q a ha
      exact ⟨A, (hkeep q hq a A ha hh).1⟩

/-- What process `q` can get hold of. -/
def reach (m : Phys) (L : Slot → Option Home) (q : Slot) : Set ℕ :=
  {x | x ∈ m.freelist ∨ x ∈ (L q).elim ∅ m.pagesOf}

theorem reach_eq (K : Set ℕ) : reach m L q = Ownership.together (m.owns L K) {.free, .slot q} := by
  ext x
  rw [Ownership.mem_together_pair, owns, owns, reach, mem_ofPred_eq, mem_ofPred_eq]

section

variable (h : Isolated m L K)
include h

/-- An exchange between the free pages and one process. -/
theorem exchange_slot (hw : Within m m' (reach m L q)) (hnodup : m'.freelist.Nodup)
    (hL : ∀ q' ≠ q, L' q' = L q') (hfree : m'.owns L' K .free ⊆ reach m L q)
    (hslot : m'.owns L' K (.slot q) ⊆ reach m L q)
    (hdis : Disjoint (m'.owns L' K .free) (m'.owns L' K (.slot q)))
    (hhoused : ∀ a, L' q = some a → ∃ A, m'.Houses a A) : Isolated m' L' K := by
  rw [reach_eq K] at hw hfree hslot
  refine h.exchange {.free, .slot q} hw hnodup ?_ ?_ ?_ ?_
  · intro o ho'
    cases o with
    | free => exact absurd (.inl rfl) ho'
    | kernel => rfl
    | slot q' => exact hL q' (fun he => ho' (.inr (congrArg Owner.slot he)))
  · rintro o (rfl | rfl)
    · exact hfree
    · exact hslot
  · rintro o (rfl | rfl) o' (rfl | rfl) hne
    · exact absurd rfl hne
    · exact hdis
    · exact hdis.symm
    · exact absurd rfl hne
  · rintro q' (hq' | hq')
    · cases hq'
    · obtain rfl := Owner.slot.inj hq'
      exact hhoused

/-- **A process gets another home**, made of its pages and of free ones. -/
theorem rehouse (ho : m'.Owns a.pagetable A (procTop m.trampoline a.trapframe) F)
    (hn : A.Spans (npages a.sz)) (hw : Within m m' (reach m L q)) (hF : F ⊆ reach m L q)
    (htf : a.trapframe ∈ reach m L q) (htF : a.trapframe ∉ F) (ha : L' q = some a)
    (hL : ∀ q' ≠ q, L' q' = L q') : Isolated m' L' K ∧ m'.Houses a A := by
  have hh : m'.Houses a A := by
    refine ⟨?_, hn, fun hc => htF (ho.sub hc)⟩
    rw [hw.trampoline]
    exact ho.toSpace
  have hslot : m'.owns L' K (.slot q) = insert a.trapframe (m'.owned a.pagetable A) := by
    rw [owns, ha]
    exact hh.pagesOf_eq
  have hfree : ∀ x ∈ m'.owns L' K .free, x ∈ F ∧ x ∉ m'.owned a.pagetable A :=
    fun x hx => (ho.free x).mp hx
  refine ⟨h.exchange_slot hw ho.nodup hL (fun x hx => hF (hfree x hx).1) ?_ ?_ ?_, hh⟩
  · rw [hslot]
    exact insert_subset htf (ho.sub.trans hF)
  · refine disjoint_left.mpr fun x hx hx' => ?_
    rw [hslot] at hx'
    rcases hx' with rfl | hx'
    · exact htF (hfree _ hx).1
    · exact (hfree x hx).2 hx'
  · intro a' ha'
    cases ha.symm.trans ha'
    exact ⟨A, hh⟩

/-- **A process gives up its home**, or has none. -/
theorem vacate (hp : m'.Pool F) (hw : Within m m' (reach m L q)) (hF : F ⊆ reach m L q)
    (ha : L' q = none) (hL : ∀ q' ≠ q, L' q' = L q') : Isolated m' L' K := by
  have hslot : m'.owns L' K (.slot q) = ∅ := by
    rw [owns, ha]
    rfl
  refine h.exchange_slot hw hp.nodup hL (fun x hx => hF ((hp.mem x).mp hx)) ?_ ?_ ?_
  · rw [hslot]
    exact empty_subset _
  · rw [hslot]
    exact disjoint_empty _
  · intro a ha'
    rw [ha] at ha'
    cases ha'

/-- **The kernel takes pages, or frees them.** -/
theorem kernel (hp : m'.Pool F) (hw : Within m m' (m.free ∪ K))
    (hF : F ⊆ m.free ∪ K) (hK : K' ⊆ m.free ∪ K)
    (hdis : Disjoint F K') :
    Isolated m' L K' := by
  have htogether : (m.free ∪ K : Set ℕ) =
      Ownership.together (m.owns L K) {.free, .kernel} := by
    ext x
    rw [Ownership.mem_together_pair, owns, owns, mem_union]
  rw [htogether] at hw hF hK
  have hfree : m'.owns L K' .free = F := Set.ext hp.mem
  refine h.exchange {.free, .kernel} hw hp.nodup ?_ ?_ ?_ ?_
  · intro o ho'
    cases o with
    | free => exact absurd (.inl rfl) ho'
    | kernel => exact absurd (.inr rfl) ho'
    | slot => rfl
  · rintro o (rfl | rfl)
    · rw [hfree]
      exact hF
    · exact hK
  · rintro o (rfl | rfl) o' (rfl | rfl) hne
    · exact absurd rfl hne
    · rw [hfree]
      exact hdis
    · rw [hfree]
      exact hdis.symm
    · exact absurd rfl hne
  · rintro q' (hq' | hq')
    · cases hq'
    · cases hq'

/-- A page that `kalloc` returns becomes a page of the kernel. -/
theorem kernel_kalloc {rest : List ℕ} (hx : m.freelist = x :: rest) (P : Page) :
    Isolated (({ m with freelist := rest }.memset x 5).setPage x P) L (insert x K) := by
  have hmem : x ∈ m.freelist := hx ▸ List.mem_cons_self
  have hpool := h.pool.kalloc hx P
  have hfree : (m.free : Set ℕ) ⊆ m.free ∪ K :=
    subset_union_left
  refine h.kernel ⟨hpool.nodup, hpool.mem, hpool.range⟩
    ((within_kalloc_setPage P rest).mono (singleton_subset_iff.mpr (hfree hmem)))
    (sdiff_subset.trans hfree) (insert_subset (hfree hmem) subset_union_right) ?_
  refine disjoint_left.mpr fun z hz hz' => ?_
  rcases hz' with rfl | hz'
  · exact hz.2 rfl
  · exact h.kernel_not_free hz' hz.1

/-- What process `q` can get hold of does not belong to the kernel. -/
theorem page_kernel (hw : Within m m' (reach m L q)) (hx : x ∈ K) : m'.page x = m.page x := by
  rw [reach_eq K] at hw
  refine hw.page x (h.apart.notMem_together (i := Owner.kernel) ?_ hx)
  rintro (hc | hc)
  · cases hc
  · cases hc

end

theorem mem_reach (hh : m.Houses a A) (ha : L q = some a)
    (hx : x ∈ insert a.trapframe (m.owned a.pagetable A)) : x ∈ reach m L q := by
  refine .inr ?_
  rw [ha, elim_some, hh.pagesOf_eq]
  exact hx

/-- The pages of a process, with the free pages beside them. -/
theorem owns_of_houses (h : Isolated m L K) (ha : L q = some a) (hh : m.Houses a A) :
    m.Owns a.pagetable A (procTop m.trampoline a.trapframe)
        (m.free ∪ m.owned a.pagetable A) ∧
      m.free ∪ m.owned a.pagetable A ⊆ reach m L q ∧
      a.trapframe ∉ m.free ∪ m.owned a.pagetable A := by
  have hslot : ∀ x ∈ insert a.trapframe (m.owned a.pagetable A), x ∈ m.owns L K (.slot q) := by
    intro x hx
    exact (mem_owns_slot ha).mpr (hh.pagesOf_eq ▸ hx)
  have hfree : ∀ x ∈ insert a.trapframe (m.owned a.pagetable A), x ∉ m.freelist :=
    fun x hx => h.not_free (hslot x hx) nofun
  refine ⟨hh.space.owns h.pool (fun x hx => h.range _ x (hslot x (mem_insert_of_mem _ hx)))
    (fun x hx => hfree x (mem_insert_of_mem _ hx)), ?_, ?_⟩
  · rintro x (hx | hx)
    · exact .inl hx
    · exact mem_reach hh ha (mem_insert_of_mem _ hx)
  · rintro (hc | hc)
    · exact hfree _ (mem_insert _ _) hc
    · exact hh.sep hc

/-- **Writing to user memory** changes pages of the process. -/
theorem copyout (h : Isolated m L K) (ha : L q = some a) (hh : m.Houses a A) (va : ℕ)
    (bs : List UInt8) :
    ∃ m', m.copyout a.pagetable va bs = .ok (m', (A.copyout va bs).2) ∧ Isolated m' L K ∧
      m'.Houses a (A.copyout va bs).1 ∧ Within m m' (reach m L q) ∧
      m'.freelist = m.freelist := by
  obtain ⟨ho, hF, htF⟩ := h.owns_of_houses ha hh
  obtain ⟨m', hm', ho', hw', hfree⟩ := ho.copyout va bs
  obtain ⟨hi, hh'⟩ := h.rehouse ho' (hh.spans.copyout va bs) (hw'.mono hF) hF
    (mem_reach hh ha (mem_insert _ _)) htF ha (fun _ _ => rfl)
  exact ⟨m', hm', hi, hh', hw'.mono hF, hfree⟩

/-- **Writing the trapframe** of a process. -/
theorem setTrapframe (h : Isolated m L K) (ha : L q = some a) (hh : m.Houses a A) (P : Page) :
    Isolated (m.setPage a.trapframe P) L K ∧ (m.setPage a.trapframe P).Houses a A ∧
      Within m (m.setPage a.trapframe P) (reach m L q) := by
  obtain ⟨ho, hF, htF⟩ := h.owns_of_houses ha hh
  have htf : a.trapframe ∈ reach m L q := mem_reach hh ha (mem_insert _ _)
  have hw : Within m (m.setPage a.trapframe P) {a.trapframe} :=
    within_setPage (mem_singleton _) P
  have ho' := ho.within hw (fun x hx hc => hh.sep (mem_singleton_iff.mp hx ▸ hc)) rfl
  have hwr := hw.mono (singleton_subset_iff.mpr htf)
  obtain ⟨hi, hh'⟩ := h.rehouse ho' hh.spans hwr hF htf htF ha (fun _ _ => rfl)
  exact ⟨hi, hh', hwr⟩

end Isolated

/-- The free pages beside those that a page table is made of. -/
theorem Owns.pool {pt : ℕ} {T : ℕ → ℕ} (h : m.Owns pt A T F) : m.Pool (F \ m.owned pt A) :=
  ⟨h.nodup, h.free, fun x hx => h.range x hx.1⟩

end Phys

namespace System

variable {s s' s'' s₁ : System} {p q np : Slot} {K : Set ℕ} {pt tf ntf npt : ℕ} {A : AddrSpace}
  {r : ℤ} {P : Proc}

/-- Where the processes have their memory. -/
def homes (s : System) : Slot → Option Home := fun q => (s.proc q).home

/-- **The memory is in order**: every page has one owner, and a slot has a home exactly if
it is in use. -/
structure Sound (s : System) (K : Set ℕ) : Prop where
  isolated : s.mem.Isolated s.homes K
  vacant : ∀ q, (s.proc q).state = .unused → (s.proc q).Vacant
  home : ∀ q, (s.proc q).state ≠ .unused → (s.proc q).home.isSome

/-- The memory is in order after a call, and the pages of the kernel are as before. -/
structure Safe (s s' : System) (K : Set ℕ) : Prop where
  sound : s'.Sound K
  page : ∀ x ∈ K, s'.mem.page x = s.mem.page x

theorem Safe.trans (h : Safe s s' K) (h' : Safe s' s'' K) : Safe s s'' K :=
  ⟨h'.sound, fun x hx => (h'.page x hx).trans (h.page x hx)⟩

theorem Proc.home_eq_some {a : Home} (h : P.home = some a) :
    P.pagetable = some a.pagetable ∧ P.trapframe = some a.trapframe ∧ P.sz = a.sz := by
  unfold Proc.home at h
  split at h
  · next pt tf hpt htf =>
    cases h
    exact ⟨hpt, htf, rfl⟩
  · cases h

theorem Proc.Vacant.home (h : P.Vacant) : P.home = none := by
  unfold Proc.home
  rw [h.pagetable]

section

variable (h : s.Sound K) {F : Set ℕ}
include h

theorem Sound.ready : s.Ready s.mem.free :=
  ⟨h.isolated.pool, h.isolated.trampoline, h.vacant⟩

/-- A slot that is in use has an address space. -/
theorem Sound.lives (hq : (s.proc q).state ≠ .unused) :
    ∃ pt tf A, s.Lives q pt tf A ∧ (s.proc q).home = some ⟨pt, tf, (s.proc q).sz⟩ := by
  obtain ⟨a, ha⟩ := isSome_iff_exists.mp (h.home q hq)
  obtain ⟨hpt, htf, hsz⟩ := Proc.home_eq_some ha
  obtain ⟨A, hh⟩ := h.isolated.housed q a ha
  have hown : ∀ x ∈ insert a.trapframe (s.mem.owned a.pagetable A),
      x ∈ s.mem.owns s.homes K (.slot q) := by
    intro x hx
    exact (mem_owns_slot ha).mpr (hh.pagesOf_eq ▸ hx)
  refine ⟨a.pagetable, a.trapframe, A, ⟨hpt, htf, hh.space, hsz ▸ hh.spans, fun x hx =>
    h.isolated.range _ x (hown x hx), fun x hx => h.isolated.not_free (hown x hx) nofun, hh.sep⟩,
    by rw [ha, hsz]⟩

/-! ## The calls -/

theorem SlotsKept.homes (hk : s.SlotsKept s') : s'.homes = s.homes := by
  funext q
  rcases hk q with hq | ⟨hu, hq⟩
  · rw [System.homes, System.homes, hq]
  · rw [System.homes, System.homes, hq, (h.vacant q hu).home]
    rfl

/-- **A call that fails** may have changed free pages, and lost some of them. -/
theorem Sound.of_free (hp : s'.mem.Pool F) (hF : F ⊆ s.mem.free)
    (hw : Within s.mem s'.mem s.mem.free) (hk : s.SlotsKept s') : Safe s s' K := by
  refine ⟨⟨?_, fun q hq => ?_, fun q hq => ?_⟩,
    fun x hx => hw.page x (h.isolated.kernel_not_free hx)⟩
  · rw [hk.homes h]
    exact h.isolated.kernel hp (hw.mono subset_union_left) (hF.trans subset_union_left)
      subset_union_right
      (disjoint_left.mpr (fun _ hx hx' => h.isolated.kernel_not_free hx' (hF hx)))
  · rcases hk q with he | ⟨-, he⟩
    · rw [he] at hq ⊢
      exact h.vacant q hq
    · rw [he]
      exact ⟨rfl, rfl, rfl⟩
  · rcases hk q with he | ⟨-, he⟩
    · rw [he] at hq ⊢
      exact h.home q hq
    · rw [he] at hq
      exact absurd rfl hq

/-- **A call that changes the memory of one process**, and of no other. -/
theorem Sound.rehouse {a : Home}
    (ho : s'.mem.Owns a.pagetable A (procTop s.mem.trampoline a.trapframe) F)
    (hn : A.Spans (npages a.sz)) (hw : Within s.mem s'.mem (Isolated.reach s.mem s.homes q))
    (hF : F ⊆ Isolated.reach s.mem s.homes q) (htf : a.trapframe ∈ Isolated.reach s.mem s.homes q)
    (htF : a.trapframe ∉ F) (ha : (s'.proc q).home = some a) (hst : (s'.proc q).state ≠ .unused)
    (hothers : ∀ q' ≠ q, s'.proc q' = s.proc q') : Safe s s' K := by
  have hL : ∀ q' ≠ q, s'.homes q' = s.homes q' := fun q' hq' => by
    rw [System.homes, System.homes, hothers q' hq']
  refine ⟨⟨(h.isolated.rehouse ho hn hw hF htf htF ha hL).1, fun q' hq' => ?_, fun q' hq' => ?_⟩,
    fun x hx => h.isolated.page_kernel hw hx⟩
  · by_cases hq : q' = q
    · exact absurd (hq ▸ hq') hst
    · rw [hothers q' hq] at hq' ⊢
      exact h.vacant q' hq'
  · by_cases hq : q' = q
    · rw [hq, ha]
      rfl
    · rw [hothers q' hq] at hq' ⊢
      exact h.home q' hq'

end

theorem free_subset_reach : s.mem.free ⊆ Isolated.reach s.mem s.homes q :=
  fun _ hx => .inl hx

theorem Lives.mem_reach (hl : s.Lives q pt tf A)
    (hhome : (s.proc q).home = some ⟨pt, tf, (s.proc q).sz⟩) {x : ℕ}
    (hx : x ∈ insert tf (s.mem.owned pt A)) : x ∈ Isolated.reach s.mem s.homes q := by
  refine .inr ?_
  rw [System.homes, hhome, elim_some, pagesOf, hl.space.userPages]
  exact hx

/-- The new process of `fork` and `spawn`. -/
theorem Allocated.safe {sz : ℕ} (h : s.Sound K) (ha : Allocated s s₁ np ntf npt)
    (ho : s'.mem.Owns npt A (procTop s.mem.trampoline ntf) (s.mem.free \ {ntf}))
    (hn : A.Spans (npages sz)) (hw : Within s.mem s'.mem s.mem.free)
    (hproc : s'.proc = update s₁.proc np P) (hsz : P.sz = sz) (htf : P.trapframe = some ntf)
    (hpt : P.pagetable = some npt) (hst : P.state ≠ .unused) : Safe s s' K := by
  have hnp : s'.proc np = P := by rw [hproc, update_self]
  have hhome : (s'.proc np).home = some ⟨npt, ntf, sz⟩ := by
    rw [hnp, Proc.home, hpt, htf, hsz]
  refine h.rehouse (a := ⟨npt, ntf, sz⟩) ho hn (hw.mono free_subset_reach)
    (sdiff_subset.trans free_subset_reach) (.inl ha.trapframe) (fun hc => hc.2 rfl) hhome
    (hnp.symm ▸ hst) (fun q hq => ?_)
  rw [hproc, update_of_ne hq, ha.proc_of_ne hq]

/-- The new process is given up. -/
theorem Allocated.slotsKept (ha : Allocated s s₁ np ntf npt)
    (hproc : s'.proc = (s₁.setProc np (s₁.proc np).freed).proc) : s.SlotsKept s' := by
  refine slotsKept_setProc (P := s₁.proc np) ha.unused (by rw [ha.proc_np]; rfl) ?_
  rw [hproc]
  show update s₁.proc np _ = update s.proc np _
  rw [ha.proc]
  exact update_idem ..

section

variable (h : s.Sound K)
include h

theorem Sound.noProc (hs : s.allocproc = .ok (s₁, none)) : Safe s s₁ K := by
  obtain ⟨_, _, hs₂, hnone, -⟩ := h.ready.allocated
  rw [hs] at hs₂
  cases hs₂
  obtain ⟨hpool, hk, -, -, hw⟩ := hnone rfl
  exact h.of_free hpool (subset_refl _) hw hk

section

variable (hp : (s.proc p).state ≠ .unused)
include hp

theorem Sound.fork (hrun : s.fork p = .ok (s', r)) : Safe s s' K := by
  obtain ⟨_, _, _, hl, -⟩ := h.lives hp
  cases fork_cases h.ready hl hrun with
  | noProc hs => exact h.noProc hs
  | noMemory ha hm hw => exact h.of_free hm (subset_refl _) hw (ha.slotsKept rfl)
  | done hs ha ho hw _ hrun =>
    obtain ⟨-, _, _, _, -, -, rfl⟩ := launch_eq hrun
    exact ha.safe h ho hl.spans hw rfl rfl ha.trapframe_np ha.pagetable_np nofun

variable {path : List UInt8}

theorem Sound.spawn (hrun : s.spawn p path = .ok (s', r)) : Safe s s' K := by
  obtain ⟨_, tf, _, hl, -⟩ := h.lives hp
  cases spawn_cases h.ready hrun with
  | noProc hs => exact h.noProc hs
  | noFile ha _ hm hw | badImage ha _ _ _ hm hw =>
    exact h.of_free hm (subset_refl _) hw (ha.slotsKept rfl)
  | @noHeader s₁ np ntf npt _ _ _ hs ha _ _ _ =>
    -- the page table is lost
    have hpool := ha.owns.pool.kfree (ha.inRange h.ready ha.within) (fun hc => hc.1.2 rfl)
    refine h.of_free hpool (fun x hx => ?_) (ha.within.trans (within_kfreed ha.trapframe))
      (ha.slotsKept rfl)
    rcases hx with rfl | hx
    · exact ha.trapframe
    · exact hx.1.1
  | @done s₁ _ np ntf npt m _ _ _ elf sz sp argc A' _ hs ha _ _ _ _ ho hn hw hrun =>
    unfold spawnCommit at hrun
    rw [ha.proc_of_ne (ha.ne h.ready hl), hl.trapframe, ha.trapframe_np] at hrun
    simp only [deref, ok_bind] at hrun
    -- only the trapframe of the new process has been written since
    obtain ⟨m₁, hm₁⟩ : ∃ m₁, ((((m.copyTrapframe tf ntf).setEntry ntf Reg.a1.index sp).setEntry ntf
      Reg.epc.index elf.entry).setEntry ntf Reg.sp.index sp).setEntry ntf Reg.a0.index argc = m₁ :=
      ⟨_, rfl⟩
    have hwt : Within m m₁ {ntf} := by
      have hself : ntf ∈ ({ntf} : Set ℕ) := mem_singleton ntf
      rw [← hm₁]
      exact ((((within_setPage hself _).trans (within_setPage hself _)).trans
        (within_setPage hself _)).trans (within_setPage hself _)).trans (within_setPage hself _)
    have ho₁ := ho.within hwt (fun x hx hc => (ho.sub hc).2 hx) (by rw [← hm₁]; rfl)
    rw [hm₁] at hrun
    obtain ⟨-, _, _, _, -, -, rfl⟩ := launch_eq hrun
    exact ha.safe h ho₁ hn (hw.trans (hwt.mono (singleton_subset_iff.mpr ha.trapframe))) rfl rfl
      ha.trapframe_np ha.pagetable_np (by rintro ⟨⟩)

/-- `exec` gives the process another page table. -/
theorem Sound.exec {argv : List (List UInt8)} (hrun : s.exec p path argv = .ok (s', r)) :
    Safe s s' K := by
  obtain ⟨pt, tf, A, hl, hhome⟩ := h.lives hp
  cases exec_cases h.ready hl hrun with
  | failed hm hw _ => exact h.of_free hm (subset_refl _) hw (fun q => .inl rfl)
  | @done _ fs₃ fs ip elf m pt' sz sp argc A' _ _ _ _ ho hn hw hrun =>
    obtain ⟨m', hm', hspace, howned, hpool, hw', -⟩ := hl.execCommit fs path elf sz sp argc ho hw
    rw [hm'] at hrun
    cases hrun
    have htf : tf ∉ s.mem.freelist := hl.free tf (mem_insert _ _)
    have hsub : ∀ x ∈ m.freelist, x ∈ s.mem.freelist := fun x hx => ((ho.free x).mp hx).1
    have hnew : ∀ x ∈ m'.owned pt' A', x ∈ s.mem.freelist := fun x hx => ho.sub (howned ▸ hx)
    have hold : insert tf (m.free ∪ s.mem.owned pt A) ⊆
        Isolated.reach s.mem s.homes p := by
      rintro x (rfl | hx | hx)
      · exact hl.mem_reach hhome (mem_insert _ _)
      · exact .inl (hsub x hx)
      · exact hl.mem_reach hhome (mem_insert_of_mem _ hx)
    have hwall := (hw.mono free_subset_reach).trans (hw'.mono hold)
    -- the free pages and those of the new page table
    have ho' : m'.Owns pt' A' (procTop s.mem.trampoline tf)
        (m'.free ∪ m'.owned pt' A') := by
      refine hspace.owns ⟨hpool.nodup, fun _ => Iff.rfl, fun x hx => hpool.range x
        ((hpool.mem x).mp hx)⟩ (fun x hx => hwall.inRange.mpr
          (h.isolated.range .free x (hnew x hx))) (fun x hx hc => ?_)
      rcases (hpool.mem x).mp hc with hc | hc
      · exact ((ho.free x).mp hc).2 (howned ▸ hx)
      · exact hl.free x (mem_insert_of_mem _ hc) (hnew x hx)
    refine h.rehouse (a := ⟨pt', tf, sz⟩) ho' hn hwall ?_ (hl.mem_reach hhome (mem_insert _ _))
      ?_ ?_ ?_ (fun q hq => update_of_ne hq ..)
    · rintro x (hx | hx)
      · exact hold (.inr ((hpool.mem x).mp hx))
      · exact .inl (hnew x hx)
    · rintro (hc | hc)
      · rcases (hpool.mem tf).mp hc with hc | hc
        · exact htf (hsub tf hc)
        · exact hl.sep hc
      · exact htf (hnew tf hc)
    · simp only [setProc, update_self, Proc.home, hl.trapframe]
    · simp only [setProc, update_self]
      exact hp

/-- `sbrk` changes the address space of the process. -/
theorem Sound.sysSbrk (n : BitVec 32) :
    ∃ m sz r, s.sysSbrk p n = .ok ({ s.setProc p { s.proc p with sz := sz } with mem := m }, r) ∧
      Safe s { s.setProc p { s.proc p with sz := sz } with mem := m } K := by
  obtain ⟨pt, tf, A, hl, hhome⟩ := h.lives hp
  obtain ⟨m, _, sz, _, hrun, ho, hn, hw, -⟩ := hl.growproc h.isolated.pool n
  have hF : s.mem.free ∪ s.mem.owned pt A ⊆ Isolated.reach s.mem s.homes p := by
    rintro x (hx | hx)
    · exact .inl hx
    · exact hl.mem_reach hhome (mem_insert_of_mem _ hx)
  refine ⟨m, sz, _, by rw [System.sysSbrk, hrun]; rfl, ?_⟩
  refine h.rehouse (a := ⟨pt, tf, sz⟩) ho hn (hw.mono hF) hF
    (hl.mem_reach hhome (mem_insert _ _)) ?_ ?_ ?_ (fun q hq => update_of_ne hq ..)
  · rintro (hc | hc)
    · exact hl.free tf (mem_insert _ _) hc
    · exact hl.sep hc
  · simp only [setProc, update_self, Proc.home, hl.pagetable, hl.trapframe]
  · simp only [setProc, update_self]
    exact hp

end

/-- Only the memory has changed. -/
theorem Sound.setMem {m : Phys} (hi : m.Isolated s.homes K)
    (hw : Within s.mem m (Isolated.reach s.mem s.homes q)) : Safe s { s with mem := m } K :=
  ⟨⟨hi, h.vacant, h.home⟩, fun _ hx => h.isolated.page_kernel hw hx⟩

end

theorem Lives.houses (hl : s.Lives q pt tf A) : s.mem.Houses ⟨pt, tf, (s.proc q).sz⟩ A :=
  ⟨hl.space, hl.spans, hl.sep⟩

/-- `copyout` to a process. -/
theorem Sound.copyout (h : s.Sound K) (hq : (s.proc q).state ≠ .unused) (va : ℕ) (bs : List UInt8) :
    ∃ pt m ok, (s.proc q).pagetable = some pt ∧ s.mem.copyout pt va bs = .ok (m, ok) ∧
      Safe s { s with mem := m } K ∧ Within s.mem m (Isolated.reach s.mem s.homes q) := by
  obtain ⟨pt, _, _, hl, hhome⟩ := h.lives hq
  obtain ⟨m, hm, hi, -, hw, -⟩ := h.isolated.copyout hhome hl.houses va bs
  exact ⟨pt, m, _, hl.pagetable, hm, h.setMem hi hw, hw⟩

/-- The value that a call returns is stored in the trapframe. -/
theorem Sound.syscallReturn (h : s.Sound K) (hq : (s.proc q).state ≠ .unused) (r : ℤ) :
    ∃ m, s.syscallReturn q r = .ok { s with mem := m } ∧ Safe s { s with mem := m } K ∧
      m.freelist = s.mem.freelist := by
  obtain ⟨_, tf, _, hl, hhome⟩ := h.lives hq
  obtain ⟨w, hw⟩ : ∃ w, (r % 2 ^ 64).toNat = w := ⟨_, rfl⟩
  obtain ⟨hi, -, hreach⟩ := h.isolated.setTrapframe hhome hl.houses
    ((s.mem.page tf).setWord Reg.a0.index w)
  refine ⟨s.mem.setEntry tf Reg.a0.index w, ?_, h.setMem hi hreach, rfl⟩
  rw [System.syscallReturn, hl.trapframe, hw]
  rfl

/-- `freeproc` gives up the home of a process. -/
theorem Sound.freeproc (h : s.Sound K) (hq : (s.proc q).state ≠ .unused) :
    ∃ m, s.freeproc q = .ok { s.setProc q (s.proc q).freed with mem := m } ∧
      Safe s { s.setProc q (s.proc q).freed with mem := m } K := by
  obtain ⟨pt, tf, A, hl, hhome⟩ := h.lives hq
  obtain ⟨ho, hF, htF⟩ := h.isolated.owns_of_houses hhome hl.houses
  obtain ⟨m, hm, hpool, hw⟩ := freeproc_full q hl.trapframe hl.pagetable ho hl.spans
    (hl.range tf (mem_insert _ _)) htF
  have hreach : insert tf (s.mem.free ∪ s.mem.owned pt A) ⊆
      Isolated.reach s.mem s.homes q :=
    insert_subset (Isolated.mem_reach hl.houses hhome (mem_insert _ _)) hF
  have hself : (s.setProc q (s.proc q).freed).proc q = (s.proc q).freed := setProc_proc_self _
  have hother : ∀ q' ≠ q, (s.setProc q (s.proc q).freed).proc q' = s.proc q' :=
    fun q' hq' => update_of_ne hq' ..
  refine ⟨m, hm, ⟨h.isolated.vacate hpool (hw.mono hreach) hreach ?_ ?_, ?_, ?_⟩,
    fun x hx => h.isolated.page_kernel (hw.mono hreach) hx⟩
  · show ((s.setProc q (s.proc q).freed).proc q).home = none
    rw [hself]
    rfl
  · intro q' hq'
    show ((s.setProc q (s.proc q).freed).proc q').home = (s.proc q').home
    rw [hother q' hq']
  · intro q'
    by_cases hq' : q' = q
    · rw [hq', hself]
      exact fun _ => ⟨rfl, rfl, rfl⟩
    · rw [hother q' hq']
      exact h.vacant q'
  · intro q'
    by_cases hq' : q' = q
    · rw [hq', hself]
      exact absurd rfl
    · rw [hother q' hq']
      exact h.home q'

end System

end Xv6
