import OsProject.ProcCalls

/-!
# A machine with one process

What `fork`, `exec`, `spawn` and `sbrk` rely on when a process calls them is
`System.Ok`, which is about the whole machine, and `System.Lives`, which is about
the memory of the process. Both are kept when a process enters the kernel
(`Ok.trap`, `Lives.trap`), and `Lives` also when its memory changes
(`Lives.resized`).

The results about these calls say what follows from `Ok` and `Lives`. So that
they can be applied to a call that really runs, a machine is built here for which
both hold: `fileMachine`, with a process that has no memory, and on top of it
`userMachine`, where the process has a page of memory with given contents and has
entered the kernel with given registers. In both the process has an open file, and
there is one file in the root directory, which can be a program.
-/

namespace Xv6

open Phys AddrSpace List

namespace System

/-- What holds between system calls, as far as creating a process and loading a
program by `p` rely on it. -/
structure Ok (s : System) (p : Slot) : Prop where
  pool : s.mem.Pool s.mem.free
  trampoline : IsPage s.mem.trampoline
  /-- Slots that are not in use are as `freeproc` leaves them. -/
  blank : ∀ q, (s.proc q).state = .unused → (s.proc q).freed = s.proc q
  fs : s.fs.Ok
  cwd : ∀ i, (s.proc p).cwd = some i → 0 < (s.fs.inode i).ref
  nextpid : 0 < s.nextpid

variable {s s' : System} {p : Slot} {path : List UInt8} {pt tf sz : ℕ} {A : AddrSpace}

section

variable (h : s.Ok p)
include h

theorem Ok.ready : s.Ready s.mem.free := by
  refine ⟨h.pool, h.trampoline, fun q hq => ?_⟩
  rw [← h.blank q hq]
  exact ⟨rfl, rfl, rfl⟩

/-- Resetting a slot that was not in use changes nothing. -/
theorem Ok.slotsKept (hk : s.SlotsKept s') : s'.proc = s.proc := by
  funext q
  rcases hk q with hq | ⟨hu, hq⟩
  · exact hq
  · rw [hq, h.blank q hu]

variable {ip : Fin NINODE} {fs₃ fs : Fs}

/-- The file that has been found, and its reference. -/
theorem Ok.opens (ho : s.fs.Opens (s.proc p).cwd path fs₃ ip) :
    ∃ d n, s.fs.resolve (s.proc p).cwd path = some (d, n) ∧
      (fs₃.inode ip).copy = s.fs.disk d n ∧ fs₃.Ok ∧ fs₃.refs = s.fs.refs + Pi.single ip 1 ∧
      fs₃.log.outstanding = s.fs.log.outstanding + 1 := by
  obtain ⟨_, _, hb, hn, hl⟩ := ho
  exact h.fs.lookup_some h.cwd hb hn hl

/-- The inode has been put and the call has ended. -/
theorem Ok.closes (ho : s.fs.Opens (s.proc p).cwd path fs₃ ip)
    (hend : (fs₃.iput ip).endOp = .ok fs) :
    fs.refs = s.fs.refs ∧ fs.log.outstanding = s.fs.log.outstanding := by
  obtain ⟨-, -, -, -, hok₃, hrefs, hout⟩ := h.opens ho
  obtain ⟨-, hrefs', hout'⟩ := hok₃.close hrefs hend
  exact ⟨hrefs', by rw [hout', hout]; rfl⟩

/-- The file-system calls of a call that fails take no reference. -/
theorem Ok.fileCalls (hfs : s.fs.fileCalls (s.proc p).cwd path = .ok fs) :
    fs.refs = s.fs.refs ∧ fs.log.outstanding = s.fs.log.outstanding := by
  obtain ⟨fs₁, hb, hfs⟩ := exists_of_bind_eq_ok hfs
  obtain ⟨⟨fs₂, o⟩, hn, hfs⟩ := exists_of_bind_eq_ok hfs
  cases o with
  | none =>
    obtain ⟨-, -, hrefs, hout⟩ := h.fs.lookup_none h.cwd hb hn hfs
    exact ⟨hrefs, hout⟩
  | some =>
    obtain ⟨_, hl, hend⟩ := exists_of_bind_eq_ok hfs
    exact h.closes ⟨fs₁, fs₂, hb, hn, hl⟩ hend

end

/-- The pages of a process, with the free pages beside them. -/
theorem Lives.owns (hl : s.Lives p pt tf A) (hp : s.mem.Pool s.mem.free) :
    s.mem.Owns pt A (procTop s.mem.trampoline tf) (s.mem.free ∪ s.mem.owned pt A) :=
  hl.space.owns hp (fun x hx => hl.range x (.inr hx))
    (fun x hx => hl.free x (.inr hx))

/-- The process after its memory has been changed within pages that are not its trapframe. -/
theorem Lives.resized (hl : s.Lives p pt tf A) {m : Phys} {A' : AddrSpace} {F : Set ℕ}
    (ho : m.Owns pt A' (procTop s.mem.trampoline tf) F) (hw : Within s.mem m F) (htf : tf ∉ F)
    (hn : A'.Spans (npages sz)) :
    ({ s.setProc p { s.proc p with sz := sz } with mem := m } : System).Lives p pt tf A' := by
  have hp : (s.setProc p { s.proc p with sz := sz }).proc p = { s.proc p with sz := sz } :=
    setProc_proc_self ..
  refine ⟨?_, ?_, ?_, ?_, ?_, ?_, fun hc => htf (ho.sub hc)⟩
  · exact (congrArg Proc.pagetable hp).trans hl.pagetable
  · exact (congrArg Proc.trapframe hp).trans hl.trapframe
  · rw [hw.trampoline]
    exact ho.toSpace
  · rw [show Proc.sz _ = sz from congrArg Proc.sz hp]
    exact hn
  · rintro x (rfl | hx)
    · exact hw.inRange.mpr (hl.range _ (.inl rfl))
    · exact ho.range x (ho.sub hx)
  · rintro x (rfl | hx) hc
    · exact htf ((ho.free _).mp hc).1
    · exact ((ho.free x).mp hc).2 hx

/-- Process `p` has entered the kernel with the trapframe page `P`. -/
def trap (s : System) (p : Slot) (P : Page) : System :=
  match (s.proc p).trapframe with
  | none => s
  | some tf => { s with mem := s.mem.setPage tf P }

/-- What a process saves when it enters the kernel is none of its memory. -/
theorem Lives.trap (hl : s.Lives p pt tf A) (P : Page) : (s.trap p P).Lives p pt tf A := by
  have heq : s.trap p P = { s with mem := s.mem.setPage tf P } := by
    rw [System.trap, hl.trapframe]
  have hw : Within s.mem (s.mem.setPage tf P) {tf} := within_setPage (Set.mem_singleton tf) P
  obtain ⟨hs, howned, -⟩ := hl.space.of_page (s.mem.setPage tf P) (fun x hx =>
    hw.page x (fun hc => hl.sep ((Set.mem_singleton_iff.mp hc) ▸ hx)))
  rw [heq]
  refine ⟨hl.pagetable, hl.trapframe, hs, hl.spans, ?_, ?_, ?_⟩
  · rw [howned]
    exact hl.range
  · rw [howned]
    exact hl.free
  · rw [howned]
    exact hl.sep

theorem Ok.trap (h : s.Ok p) (P : Page) : (s.trap p P).Ok p := by
  unfold System.trap
  split
  · exact h
  · exact ⟨⟨h.pool.nodup, h.pool.mem, h.pool.range⟩, h.trampoline, h.blank, h.fs, h.cwd, h.nextpid⟩

theorem trap_eq (P : Page) : (s.trap p P).proc = s.proc ∧ (s.trap p P).fs = s.fs ∧
    (s.trap p P).file = s.file := by
  unfold System.trap
  split
  · exact ⟨rfl, rfl, rfl⟩
  · exact ⟨rfl, rfl, rfl⟩

/-! ## A small machine -/

/-- Memory with these free pages. -/
def blankMemory (free : List ℕ) : Phys where
  page := fun _ _ => 0
  freelist := free
  kend := 0x80022000
  trampoline := 0x80007000

theorem blankMemory_inRange {x : ℕ} {free : List ℕ} : (blankMemory free).InRange x ↔
    x % PGSIZE = 0 ∧ 0x80022000 ≤ x ∧ x < PHYSTOP := Iff.rfl

theorem blankMemory_trampoline (free : List ℕ) : IsPage (blankMemory free).trampoline := by
  show 0x80007000 % PGSIZE = 0 ∧ 0x80007000 < 2 ^ 56
  decide

/-- An empty page table, made from three pages before the free ones. -/
def bootMemory (tf : ℕ) (free : List ℕ) : Phys × Option ℕ :=
  match (blankMemory (0x87ffc000 :: 0x87ffd000 :: 0x87ffe000 :: free)).procPagetable tf with
  | .ok r => r
  | .error _ => (blankMemory [], none)

/-- A machine with these free pages and one process. The process has no memory yet, has
opened a file, and is in the root directory, where there is a file `a` with these bytes. -/
def fileMachine (data : List UInt8) (free : List ℕ) : System where
  mem := (bootMemory 0x87fff000 free).1
  proc q :=
    if q = 0 then
      { state := .running, chan := 0, killed := false, xstate := 0, pid := 1, parent := none
        sz := 0, pagetable := (bootMemory 0x87fff000 free).2, trapframe := some 0x87fff000
        ofile := fun i => if i = 0 then some 0 else none, cwd := some 0, name := [] }
    else
      { state := .unused, chan := 0, killed := false, xstate := 0, pid := 0, parent := none
        sz := 0, pagetable := none, trapframe := none
        ofile := fun _ => none, cwd := none, name := [] }
  nextpid := 2
  fs := {
    inode := fun i => ⟨ROOTDEV, ROOTINO, if i = 0 then 1 else 0, false, ⟨0, 0, 0, 0, []⟩⟩
    disk := fun _ n =>
      if n = ROOTINO then ⟨T_DIR, 0, 0, 1, [2, 0, 97] ++ List.replicate 13 0⟩
      else ⟨2, 0, 0, 1, data⟩
    log := ⟨0, false, 0⟩ }
  file := fun f => if f = 0 then 1 else 0

theorem fileMachine_ok (data : List UInt8) (free : List ℕ)
    (hd : (0x87ffc000 :: 0x87ffd000 :: 0x87ffe000 :: 0x87fff000 :: free).Nodup)
    (hr : ∀ x ∈ free, x % PGSIZE = 0 ∧ 0x80022000 ≤ x ∧ x < PHYSTOP) :
    (fileMachine data free).Ok 0 ∧ 0 < (fileMachine data free).mem.kend ∧
      ∃ pt, (fileMachine data free).Lives 0 pt 0x87fff000 empty := by
  have hpool : (blankMemory (0x87ffc000 :: 0x87ffd000 :: 0x87ffe000 :: free)).Pool
      {x | x ∈ 0x87ffc000 :: 0x87ffd000 :: 0x87ffe000 :: free} := by
    refine ⟨?_, fun _ => Iff.rfl, fun x hx => blankMemory_inRange.mpr ?_⟩
    · show (0x87ffc000 :: 0x87ffd000 :: 0x87ffe000 :: free).Nodup
      simp only [nodup_cons, mem_cons, not_or] at hd ⊢
      exact ⟨⟨hd.1.1, hd.1.2.1, hd.1.2.2.2⟩, ⟨hd.2.1.1, hd.2.1.2.2⟩, hd.2.2.1.2, hd.2.2.2.2⟩
    · simp only [Set.mem_ofPred_eq, mem_cons] at hx
      rcases hx with rfl | rfl | rfl | hx
      · decide
      · decide
      · decide
      · exact hr x hx
  have htf : (0x87fff000 : ℕ) ∉ 0x87ffc000 :: 0x87ffd000 :: 0x87ffe000 :: free := by
    simp only [nodup_cons, mem_cons, not_or] at hd ⊢
    exact ⟨by decide, by decide, by decide, hd.2.2.2.1⟩
  obtain ⟨m, _, hm, hw, -, hsome, hiff⟩ := hpool.procPagetable
    (show IsPage 0x87fff000 from ⟨by decide, by decide⟩) (blankMemory_trampoline _)
  obtain ⟨pt, rfl⟩ := Option.isSome_iff_exists.mp (hiff.mpr (by simp [blankMemory]))
  have howns := hsome pt rfl
  have hboot : bootMemory 0x87fff000 free = (m, some pt) := by
    rw [bootMemory, hm]
  have hmem : (fileMachine data free).mem = m := congrArg Prod.fst hboot
  have hfreeF : ∀ x ∈ m.freelist, x ∈ 0x87ffc000 :: 0x87ffd000 :: 0x87ffe000 :: free :=
    fun x hx => ((howns.free x).mp hx).1
  refine ⟨⟨?_, ?_, ?_, ?_, ?_, ?_⟩, ?_, pt, ?_, rfl, ?_, ?_, ?_, ?_, ?_⟩
  · rw [hmem]
    exact ⟨howns.nodup, fun _ => Iff.rfl, fun x hx => howns.range x (hfreeF x hx)⟩
  · rw [hmem, hw.trampoline]
    exact blankMemory_trampoline _
  · intro q hq
    have hq0 : q ≠ 0 := by
      rintro rfl
      cases hq
    simp [fileMachine, Proc.freed, hq0]
  · have hzero : ∀ i, 0 < ((fileMachine data free).fs.inode i).ref → i = 0 := by
      intro i hi
      by_contra hne
      simp [fileMachine, hne] at hi
    exact ⟨fun i j hi hj _ _ => by rw [hzero i hi, hzero j hj], fun i _ hv => by cases hv⟩
  · intro i hi
    cases hi
    exact one_pos
  · show (0 : ℤ) < 2
    decide
  · rw [hmem, hw.kend]
    show 0 < 0x80022000
    decide
  · exact congrArg Prod.snd hboot
  · rw [hmem, hw.trampoline]
    exact howns.toSpace
  · show empty.Spans (npages 0)
    rw [npages_zero]
    exact spans_empty
  · rw [hmem]
    rintro x (rfl | hx)
    · exact hw.inRange.mpr (blankMemory_inRange.mpr (by decide))
    · exact howns.range x (howns.sub hx)
  · rw [hmem]
    rintro x (rfl | hx)
    · exact fun hc => htf (hfreeF _ hc)
    · exact fun hc => ((howns.free x).mp hc).2 hx
  · rw [hmem]
    exact fun hc => htf (howns.sub hc)

/-! ## Program files -/

/-- An ELF header that has `n` program headers after it. -/
def elfFile (n : UInt8) : List UInt8 :=
  [0x7f, 0x45, 0x4c, 0x46] ++ List.replicate 28 0 ++ [64] ++ List.replicate 23 0 ++ [n] ++
    List.replicate 7 0

/-- A program header: one byte of the file, at the offset 2³² · `hi`, is to be at the
address 0, in a segment of `memsz` bytes. -/
def oneByteSegment (hi memsz : UInt8) : List UInt8 :=
  -- type and flags, offset, addresses, sizes, alignment
  [1, 0, 0, 0, 5, 0, 0, 0] ++ [0, 0, 0, 0, hi, 0, 0, 0] ++ List.replicate 16 0 ++
    [1, 0, 0, 0, 0, 0, 0, 0] ++ [memsz, 0, 0, 0, 0, 0, 0, 0] ++ List.replicate 8 0

/-- A program with one segment, which is a byte at the offset 2³² · `hi`. -/
def oneByteElf (hi : UInt8) : List UInt8 := elfFile 1 ++ oneByteSegment hi 1

/-- A file with two segments. The first one can be loaded; the second one is shorter than what
it has in the file, so that loading fails when pages are already mapped. -/
def badElf : List UInt8 := elfFile 2 ++ oneByteSegment 0 1 ++ oneByteSegment 0 0

/-! ## A process with memory -/

/-- The root of the page table of the process. -/
abbrev rootPage : ℕ := 0x87ffc000

/-- Free pages. -/
def freePages (n : ℕ) : List ℕ := (List.range n).map (fun i => 0x87fe0000 + i * PGSIZE)

/-- The process of `fileMachine` after it has got a page from `uvmalloc` and written to it,
and has entered the kernel with the registers `regs`. -/
def userMachine (data : List UInt8) (free : List ℕ) (user regs : Page) : System :=
  let s := fileMachine data free
  { s.setProc 0 { s.proc 0 with sz := PGSIZE } with
    mem := match s.mem.uvmalloc rootPage 0 PGSIZE PTE_W with
      | .ok (m, _) => (m.setPage (m.frame rootPage 0) user).setPage 0x87fff000 regs
      | .error _ => s.mem }

/-- The memory of that process. -/
def userPage (user : Page) : AddrSpace :=
  Function.update empty 0 (some ⟨PTE_R ||| PTE_U ||| PTE_W ||| PTE_V, user⟩)

/-- **The process has its memory**, if there were enough free pages. -/
theorem userMachine_ok (data : List UInt8) (free : List ℕ) (user regs : Page)
    (hd : (0x87ffc000 :: 0x87ffd000 :: 0x87ffe000 :: 0x87fff000 :: free).Nodup)
    (hr : ∀ x ∈ free, x % PGSIZE = 0 ∧ 0x80022000 ≤ x ∧ x < PHYSTOP)
    (hpt : ((fileMachine data free).proc 0).pagetable = some rootPage)
    (hsz : ((fileMachine data free).mem.uvmalloc rootPage 0 PGSIZE PTE_W).toOption.map Prod.snd =
      some PGSIZE) : (userMachine data free user regs).Ok 0 ∧
      0 < (userMachine data free user regs).mem.kend ∧
      (userMachine data free user regs).Lives 0 rootPage 0x87fff000 (userPage user) := by
  obtain ⟨hok, hk, pt, hl⟩ := fileMachine_ok data free hd hr
  obtain rfl : pt = rootPage := Option.some_inj.mp (hl.pagetable.symm.trans hpt)
  obtain ⟨m, ok, hm, hw, -, hyes, -⟩ := (hl.owns hok.pool).uvmalloc 0 PGSIZE PTE_W hl.spans
    (by decide) (by decide)
  obtain rfl : ok = true := by
    rw [hm] at hsz
    by_contra hc
    rw [if_neg hc] at hsz
    cases hsz
  have ho := (hyes rfl).writeUser (v := 0) (if_pos ⟨le_rfl, by decide⟩) user
  have hgrow : Function.update (empty.grow 0 1 (PTE_R ||| PTE_U ||| PTE_W ||| PTE_V)) 0
      (some ⟨PTE_R ||| PTE_U ||| PTE_W ||| PTE_V, user⟩) = userPage user := by
    rw [grow_succ, grow_zero, Function.update_idem]
    rfl
  rw [show npages PGSIZE - npages 0 = 1 from rfl, npages_zero, hgrow] at ho
  have hfr : m.frame rootPage 0 ∈ {x | x ∈ (fileMachine data free).mem.freelist} ∪
      (fileMachine data free).mem.owned rootPage empty :=
    (hyes rfl).sub (.inr ⟨0, by simp [AddrSpace.grow, npages], rfl⟩)
  have htf : (0x87fff000 : ℕ) ∉ {x | x ∈ (fileMachine data free).mem.freelist} ∪
      (fileMachine data free).mem.owned rootPage empty := fun hx =>
    hx.elim (hl.free _ (.inl rfl)) hl.sep
  have hspans : (userPage user).Spans (npages PGSIZE) := spans_empty.update_some _
  have hl' := hl.resized ho (hw.trans (within_setPage hfr user)) htf hspans
  have hok' : System.Ok { (fileMachine data free).setProc 0
      { (fileMachine data free).proc 0 with sz := PGSIZE } with
      mem := m.setPage (m.frame rootPage 0) user } 0 := by
    refine ⟨⟨ho.nodup, fun _ => Iff.rfl, fun x hx => ho.range x ((ho.free x).mp hx).1⟩, ?_,
      fun q hq => ?_, hok.fs, hok.cwd, hok.nextpid⟩
    · show IsPage m.trampoline
      rw [hw.trampoline]
      exact hok.trampoline
    · have hq0 : q ≠ 0 := by
        rintro rfl
        cases hq
      simp [fileMachine, setProc, Proc.freed, hq0]
  unfold userMachine
  dsimp only
  rw [hm]
  refine ⟨hok'.trap regs, ?_, hl'.trap regs⟩
  show 0 < m.kend
  rw [hw.kend]
  exact hk

end System

end Xv6
