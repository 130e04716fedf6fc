import OsProject.System

/-!
# Which pages a new process takes and gives back

`allocproc` takes a page for the trapframe and three pages for an empty page
table, or takes nothing (`Ready.allocproc`). `freeproc` gives back what the slot
still points to, no less and no more: the trapframe and the page table
(`freeproc_full`), or the trapframe alone when the pointer to the page table has
been cleared (`freeproc_cleared`).
-/

namespace Xv6

open Phys

/-- A slot that holds no memory. -/
structure System.Proc.Vacant (P : System.Proc) : Prop where
  trapframe : P.trapframe = none
  pagetable : P.pagetable = none
  sz : P.sz = 0

namespace System

/-- What the allocation of a process relies on: the free list is in order, the
trampoline is a page, and slots that are not in use hold no memory. -/
structure Ready (s : System) (F : Set ℕ) : Prop where
  pool : s.mem.Pool F
  trampoline : IsPage s.mem.trampoline
  vacant : ∀ q, (s.proc q).state = .unused → (s.proc q).Vacant

/-- The process table is the same, except that a slot that was not in use may
have been reset. -/
def SlotsKept (s s' : System) : Prop :=
  ∀ q, s'.proc q = s.proc q ∨ ((s.proc q).state = .unused ∧ s'.proc q = (s.proc q).freed)

/-- The slot `np` after `allocproc`. -/
def Proc.allocated (P : Proc) (pid : ℤ) (tf pt : ℕ) : Proc :=
  { P with pid := pid, state := .used, trapframe := some tf, pagetable := some pt }

variable {s s' s₁ : System} {p np : Slot} {F : Set ℕ} {m m' : Phys} {pt tf sz : ℕ}
  {A : AddrSpace} {tr : ℕ}

/-- `freeproc` of a slot with a trapframe and a page table. -/
theorem freeproc_full (np : Slot) (htf : (s.proc np).trapframe = some tf)
    (hpt : (s.proc np).pagetable = some pt) (ho : s.mem.Owns pt A (procTop tr tf) F)
    (hn : A.Spans (npages (s.proc np).sz)) (hr : s.mem.InRange tf) (htF : tf ∉ F) :
    ∃ m', s.freeproc np = .ok { s.setProc np (s.proc np).freed with mem := m' } ∧
      m'.Pool (insert tf F) ∧ Within s.mem m' (insert tf F) := by
  have hk := ho.kfree hr htF
  obtain ⟨m', hm', hp', hw'⟩ := hk.procFreepagetable hn
  refine ⟨m', ?_, hp', (within_kfreed (.inl rfl)).trans hw'⟩
  unfold freeproc
  rw [htf, hpt]
  show (s.mem.kfree tf >>= _) = _
  rw [kfree_of_inRange hr, ok_bind]
  show ((s.mem.kfreed tf).procFreepagetable pt _ >>= _) = _
  rw [hm', ok_bind]

/-- `freeproc` of a slot with a trapframe whose page table is null. -/
theorem freeproc_cleared (htf : (s.proc np).trapframe = some tf)
    (hpt : (s.proc np).pagetable = none) (hr : s.mem.InRange tf) :
    s.freeproc np = .ok { s.setProc np (s.proc np).freed with mem := s.mem.kfreed tf } := by
  unfold freeproc
  rw [htf, hpt]
  show (s.mem.kfree tf >>= _) = _
  rw [kfree_of_inRange hr, ok_bind]
  rfl

/-- `freeproc` of a slot without memory. -/
theorem freeproc_vacant (htf : (s.proc np).trapframe = none) (hpt : (s.proc np).pagetable = none) :
    s.freeproc np = .ok (s.setProc np (s.proc np).freed) := by
  unfold freeproc
  rw [htf, hpt]
  rfl

theorem setProc_proc_self (P : Proc) : (s.setProc np P).proc np = P := by
  simp [setProc]

/-- Resetting a slot that was allocated is resetting the slot it was before. -/
theorem slotsKept_setProc {P : Proc} (hu : (s.proc np).state = .unused)
    (hP : P.freed = (s.proc np).freed) (hproc : s'.proc = (s.setProc np P.freed).proc) :
    s.SlotsKept s' := by
  intro q
  rw [hproc]
  by_cases hq : q = np
  · subst hq
    exact .inr ⟨hu, by rw [setProc_proc_self, hP]⟩
  · exact .inl (by simp [setProc, hq])

/-- **`allocproc` takes a trapframe and an empty page table, or nothing.** It
succeeds exactly if there are a free slot and four free pages. -/
theorem Ready.allocproc (h : s.Ready F) :
    ∃ s₁ r, s.allocproc = .ok (s₁, r) ∧ Within s.mem s₁.mem F ∧ s₁.fs = s.fs ∧ s₁.file = s.file ∧
      (r = none → s₁.mem.Pool F ∧ s.SlotsKept s₁) ∧
      (∀ np, r = some np → (s.proc np).state = .unused ∧ s₁.nextpid = s.nextpid + 1 ∧
        ∃ tf ∈ F, ∃ pt, s₁.proc = (s.setProc np ((s.proc np).allocated s.nextpid tf pt)).proc ∧
          s₁.mem.Owns pt AddrSpace.empty (procTop s.mem.trampoline tf) (F \ {tf})) ∧
      (r.isSome ↔ (∃ q, (s.proc q).state = .unused) ∧ 4 ≤ s.mem.freelist.length) := by
  unfold System.allocproc
  cases hfind : (List.finRange NPROC).find? (fun p => decide ((s.proc p).state = .unused)) with
  | none =>
    refine ⟨s, none, rfl, Within.refl, rfl, rfl, fun _ => ⟨h.pool, fun q => .inl rfl⟩,
      (fun _ hc => by cases hc), iff_of_false (by simp) ?_⟩
    rintro ⟨⟨q, hq⟩, -⟩
    exact absurd (List.find?_eq_none.mp hfind q (List.mem_finRange q)) (by simpa using hq)
  | some np =>
    have hu := List.find?_some hfind
    simp only [decide_eq_true_eq] at hu
    have hvac := h.vacant np hu
    cases hfl : s.mem.freelist with
    | nil =>
      simp only [kalloc_nil hfl]
      rw [freeproc_vacant (by simp [setProc]) (by simp [setProc, hvac.pagetable]), ok_bind]
      refine ⟨_, none, rfl, Within.refl, rfl, rfl, fun _ => ⟨⟨?_, ?_, ?_⟩, ?_⟩,
        (fun _ hc => by cases hc), by simp⟩
      · exact h.pool.nodup
      · exact h.pool.mem
      · exact h.pool.range
      · refine slotsKept_setProc (P := { s.proc np with
          pid := s.nextpid, state := .used, trapframe := none }) hu rfl ?_
        simp [setProc]
    | cons tf rest =>
      have htF : tf ∈ F := (h.pool.mem tf).mp (hfl ▸ List.mem_cons_self)
      have hr := h.pool.range tf htF
      have hp₁ := h.pool.kalloc hfl (fun _ => 5)
      have hw₁ : Within s.mem (({ s.mem with freelist := rest } : Phys).memset tf 5) F :=
        ⟨(within_setPage htF _).page, rfl, rfl⟩
      obtain ⟨m₂, r, hm₂, hw₂, hnone, hsome, hiff⟩ := hp₁.procPagetable hr.isPage h.trampoline
      have hw : Within s.mem m₂ F := hw₁.trans (hw₂.mono (fun y hy => hy.1))
      have hr₂ : m₂.InRange tf := hw.inRange.mpr hr
      simp only [kalloc_cons hfl]
      rw [show (({ s.mem with freelist := rest } : Phys).memset tf 5).procPagetable tf =
        .ok (m₂, r) from hm₂, ok_bind]
      have hiff' : r.isSome ↔ (∃ q, (s.proc q).state = .unused) ∧ 4 ≤ (tf :: rest).length := by
        rw [hiff]
        show 3 ≤ rest.length ↔ _
        rw [List.length_cons]
        exact ⟨fun h3 => ⟨⟨np, hu⟩, by omega⟩, fun h4 => by omega⟩
      cases r with
      | none =>
        rw [freeproc_cleared (by simp [setProc]) (by simp [setProc]) hr₂, ok_bind]
        refine ⟨_, none, rfl, hw.trans (within_kfreed htF), rfl, rfl, fun _ => ⟨?_, ?_⟩,
          (fun _ hc => by cases hc), hiff'⟩
        · have hk := (hnone rfl).kfree hr₂ (fun hc => hc.2 rfl)
          rwa [Set.insert_sdiff_singleton, Set.insert_eq_of_mem htF] at hk
        · refine slotsKept_setProc (P := { s.proc np with
            pid := s.nextpid, state := .used, trapframe := some tf, pagetable := none }) hu rfl ?_
          simp [setProc]
      | some pt =>
        refine ⟨_, some np, rfl, hw, rfl, rfl, (fun hc => by cases hc), ?_, hiff'⟩
        rintro _ ⟨⟩
        exact ⟨hu, rfl, tf, htF, pt, rfl, hsome pt rfl⟩

/-! ## Loading -/

variable {fs fs₁ fs₂ : Fs} {ip : Fin NINODE} {elf : ElfHdr} {argv : List (List UInt8)}

variable (ho : m.Owns pt AddrSpace.empty (procTop tr tf) F)
include ho

/-- What holds of the memory after loading, however it ended. -/
theorem loadProgram_owns {l : Load} (hrun : loadProgram m fs ip elf pt argv = .ok (m', fs₁, l)) :
    Within m m' F ∧ ∃ A, m'.Owns pt A (procTop tr tf) F ∧
      (∀ sz ip', l = .bad sz ip' → A.Spans (npages sz) ∧
        (ip' = some ip ∧ fs₁ = fs ∨ ip' = none ∧ (fs.iput ip).endOp = .ok fs₁)) ∧
      (∀ sz sp argc, l = .done sz sp argc → A.Spans (npages sz) ∧ (fs.iput ip).endOp = .ok fs₁ ∧
        (elfHeader (fs.inode ip).copy.data = some elf →
          AddrSpace.loadFile (fs.inode ip).copy.data argv =
            some { pages := A, sz := sz, entry := elf.entry, sp := sp, argc := argc })) := by
  obtain ⟨_, _, ok, A₁, hm₁, hw₁, ho₁, hl₁, hok₁⟩ := ho.loadSegs
    (fs.inode ip).copy.data (elf.phoff % 2 ^ 32) 0
    (by rw [npages_zero]; exact AddrSpace.Loading.empty)
  unfold loadProgram at hrun
  rw [hm₁, ok_bind] at hrun
  cases ok with
  | false =>
    obtain ⟨rfl, heq⟩ := Prod.mk.inj (Except.ok.inj hrun)
    cases heq
    refine ⟨hw₁, A₁, ho₁, fun sz ip' hl => ?_, fun _ _ _ hc => by cases hc⟩
    obtain ⟨rfl, rfl⟩ := Load.bad.inj hl
    exact ⟨hl₁.spans, .inl ⟨rfl, rfl⟩⟩
  | true =>
    obtain ⟨_, hend, hrun⟩ := exists_of_bind_eq_ok hrun
    obtain ⟨⟨_, _, _⟩, hm₂, hrun⟩ := exists_of_bind_eq_ok hrun
    rcases ho₁.buildStack argv hl₁.spans with ⟨herr, -⟩ | ⟨m₂', sz₂', r', A₂, hm₂',
        hw₂, ho₂, hn₂, hr₂⟩
    · rw [herr] at hm₂
      cases hm₂
    rw [hm₂'] at hm₂
    obtain ⟨rfl, heq⟩ := Prod.mk.inj (Except.ok.inj hm₂)
    obtain ⟨rfl, rfl⟩ := Prod.mk.inj heq
    cases r' with
    | none =>
      obtain ⟨rfl, heq⟩ := Prod.mk.inj (Except.ok.inj hrun)
      cases heq
      refine ⟨hw₁.trans hw₂, A₂, ho₂, fun sz ip' hl => ?_, fun _ _ _ hc => by cases hc⟩
      obtain ⟨rfl, rfl⟩ := Load.bad.inj hl
      exact ⟨hn₂, .inr ⟨rfl, hend⟩⟩
    | some q =>
      obtain ⟨_, _⟩ := q
      obtain ⟨rfl, heq⟩ := Prod.mk.inj (Except.ok.inj hrun)
      cases heq
      refine ⟨hw₁.trans hw₂, A₂, ho₂, (fun _ _ hc => by cases hc), fun sz sp' argc' hl => ?_⟩
      obtain ⟨rfl, rfl, rfl⟩ := Load.done.inj hl
      refine ⟨hn₂, hend, fun helf => ?_⟩
      rw [AddrSpace.loadFile, helf]
      simp only [hok₁ rfl, hr₂ _ _ rfl]

/-- **Whatever goes wrong once the local page table is set, the code at `bad`
gives back the pool, and puts the inode and ends the call if that has not been
done.** -/
theorem bad_of_loadProgram {ip' : Option (Fin NINODE)}
    (hrun : loadProgram m fs ip elf pt argv = .ok (m', fs₁, .bad sz ip')) {m₂ : Phys}
    (hbad : bad m' fs₁ (some pt) sz ip' = .ok (m₂, fs₂)) :
    m₂.Pool F ∧ Within m m₂ F ∧ (fs.iput ip).endOp = .ok fs₂ := by
  obtain ⟨hw, _, ho', hbad', -⟩ := loadProgram_owns ho hrun
  obtain ⟨hn, hfs⟩ := hbad' sz ip' rfl
  obtain ⟨_, hm₃, hp₃, hw₃⟩ := ho'.procFreepagetable hn
  unfold bad at hbad
  simp only [hm₃, ok_bind] at hbad
  rcases hfs with ⟨rfl, rfl⟩ | ⟨rfl, hend⟩
  · obtain ⟨_, hfs₃, hbad⟩ := exists_of_bind_eq_ok hbad
    cases hbad
    exact ⟨hp₃, hw.trans hw₃, hfs₃⟩
  · cases hbad
    exact ⟨hp₃, hw.trans hw₃, hend⟩

end System

end Xv6
