import OsProject.ArgStack
import OsProject.Sbrk
import OsProject.Syscall

/-!
# `sys_exec`

The arguments of `exec` are in the memory of the process that calls it: an array of
addresses, up to a null pointer, and a string at each of them. `sys_exec` copies the
strings into pages of its own, one page for each, before it calls `exec`, and frees these
pages afterwards. The number of arguments is limited by the array of the pages, and again,
by one less, in `exec`.

`System.sysExec` leaves open how the arguments are read; here it is done
(`sysExecUser_eq`). With `ArgStack` this gives the way of the arguments from the memory of
the process before the call to its memory after it (`args_survive`).
-/

namespace Xv6

open Function (update update_of_ne update_self)

open Phys List Page Option

/-! ## Arguments in user memory -/

namespace AddrSpace

/-- The process can read the byte `b` at the address `a`. -/
def Reads (A : AddrSpace) (a : ℕ) (b : UInt8) : Prop :=
  ∃ pg, A (a / PGSIZE) = some pg ∧ hasFlag pg.flags PTE_U = true ∧
    pg.bytes ⟨a % PGSIZE, Nat.mod_lt _ PGSIZE_pos⟩ = b

/-- The process can read these bytes from the address `a` on. -/
def Holds (A : AddrSpace) (a : ℕ) (bs : List UInt8) : Prop :=
  ∀ i (hi : i < bs.length), A.Reads (a + i) bs[i]

/-- The argument vector `argv` is at the address `a`: the addresses of its strings, which
are not null, and a null pointer after them. -/
def ArgvAt (A : AddrSpace) : ℕ → List (List UInt8) → Prop
  | a, [] => A.Holds a (wordBytes 0)
  | a, s :: argv =>
    (∃ w < 2 ^ 64, w ≠ 0 ∧ A.Holds a (wordBytes w) ∧ 0 ∉ s ∧ A.Holds w (s ++ [0])) ∧
      A.ArgvAt (a + 8) argv

end AddrSpace

/-! ## The code -/

namespace Page

/-- A page as the buffer of `fetchstr`. -/
def buffer (P : Page) : Buffer := fun i => if h : i < PGSIZE then P ⟨i, h⟩ else 0

end Page

namespace System

/-- The loop of `sys_exec`, at argument `i`, with room for `n` more of them: the pages it
has taken, and the arguments. -/
def fetchArgv (pagetable sz uargv : ℕ) :
    ℕ → ℕ → Phys → Except Fault (Phys × List ℕ × Option (List (List UInt8)))
  | 0, _, m => .ok (m, [], none)
  | n + 1, i, m => do
    match ← m.fetchaddr pagetable sz ((uargv + 8 * i) % 2 ^ 64) with
    | none => .ok (m, [], none)
    | some uarg =>
      if uarg = 0 then .ok (m, [], some [])
      else
        match m.kalloc with
        | (m, none) => .ok (m, [], none)
        | (m, some mem) => do
          let (buf, r) ← m.fetchstr pagetable (m.page mem).buffer uarg PGSIZE
          let m := m.setPage mem (fun o => buf o)
          if r < 0 then .ok (m, [mem], none)
          else do
            let (m, pages, argv) ← fetchArgv pagetable sz uargv n (i + 1) m
            .ok (m, mem :: pages, argv.map (buf.cstr PGSIZE :: ·))

/-- `sys_exec`, with what was in the array `path` before. -/
def sysExecUser (s : System) (p : Slot) (path : Buffer) : Except Fault (System × ℤ) := do
  let pagetable ← deref (s.proc p).pagetable
  let tf ← deref (s.proc p).trapframe
  let uargv := s.mem.entry tf Reg.a1.index
  let (path, r) ← s.mem.fetchstr pagetable path (s.mem.entry tf Reg.a0.index) MAXPATH
  if r < 0 then .ok (s, -1)
  else do
    let (m, pages, argv) ← fetchArgv pagetable (s.proc p).sz uargv MAXARG 0 s.mem
    let s := { s with mem := m }
    let (s, ret) ←
      match argv with
      | some argv => s.exec p (path.cstr MAXPATH) argv
      | none => .ok (s, -1)
    let m ← freeArgs s.mem pages
    .ok ({ s with mem := m }, ret)

/-! ## The pages of the arguments -/

/-- These pages have been taken off the free list, and nothing else has changed. -/
structure Taken (m m' : Phys) (pages : List ℕ) : Prop where
  freelist : m.freelist = pages ++ m'.freelist
  within : Within m m' {x | x ∈ pages}

variable {m m' m₁ : Phys} {s s' s'' : System} {p : Slot} {pt tf tr n i sz uargv : ℕ} {A : AddrSpace}
  {pages rest : List ℕ} {x : ℕ} {argv : List (List UInt8)} {r : ℤ} {args : List Arg}
  {path : Option (List UInt8)}

theorem Taken.nil : Taken m m [] := ⟨rfl, Within.refl⟩

/-- One more page, taken first. -/
theorem Taken.cons (hx : m.freelist = x :: m₁.freelist) (hw : Within m m₁ {x})
    (h : Taken m₁ m' pages) : Taken m m' (x :: pages) := by
  refine ⟨by rw [hx, h.freelist]; rfl, fun y hy => ?_, h.within.kend.trans hw.kend,
    h.within.trampoline.trans hw.trampoline⟩
  rw [Set.mem_ofPred_eq, mem_cons, not_or] at hy
  rw [h.within.page y hy.2, hw.page y hy.1]

theorem fetchArgs_of_nil (hf : m.freelist = []) (arg : Arg) (args : List Arg) :
    fetchArgs (n + 1) m (arg :: args) = (m, [], none) := by
  cases arg <;> simp [fetchArgs, kalloc_nil hf]

theorem fetchArgs_badStr (hf : m.freelist = x :: rest) (args : List Arg) :
    fetchArgs (n + 1) m (.badStr :: args) =
      ({ m with freelist := rest }.memset x 5, [x], none) := by
  simp [fetchArgs, kalloc_cons hf]

theorem fetchArgs_str (hf : m.freelist = x :: rest) (str : List UInt8) (args : List Arg) :
    fetchArgs (n + 1) m (.str str :: args) =
      (fetchArgs n (({ m with freelist := rest }.memset x 5).write x 0 (str ++ [0])) args).map
        id (Prod.map (x :: ·) (Option.map (str :: ·))) := by
  simp [fetchArgs, kalloc_cons hf, Prod.map]

/-- **The arguments take pages off the free list**, whatever they are. -/
theorem fetchArgs_taken (n : ℕ) (m : Phys) (args : List Arg) :
    Taken m (fetchArgs n m args).1 (fetchArgs n m args).2.1 := by
  induction n generalizing m args with
  | zero =>
    rw [fetchArgs]
    exact .nil
  | succ n ih =>
    cases args with
    | nil => exact .nil
    | cons arg args =>
      cases hf : m.freelist with
      | nil =>
        rw [fetchArgs_of_nil hf]
        exact .nil
      | cons x rest =>
        cases arg with
        | badAddr => exact .nil
        | badStr =>
          rw [fetchArgs_badStr hf]
          exact .cons hf (within_kalloc rest) .nil
        | str =>
          rw [fetchArgs_str hf]
          exact .cons hf (within_kalloc_setPage _ rest) (ih _ args)

/-- Nothing but the contents of these pages differs. -/
structure SameBut (m m' : Phys) (pages : List ℕ) : Prop where
  freelist : m'.freelist = m.freelist
  within : Within m m' {x | x ∈ pages}

theorem SameBut.refl : SameBut m m pages := ⟨rfl, Within.refl⟩

/-- What was in the pages does not matter once they are free. -/
theorem freeArgs_congr (h : SameBut m m' pages) : freeArgs m' pages = freeArgs m pages := by
  induction pages generalizing m m' with
  | nil =>
    obtain ⟨page, freelist, kend, trampoline⟩ := m
    obtain ⟨page', freelist', kend', trampoline'⟩ := m'
    have hpage : page' = page := funext (fun x => h.within.page x not_mem_nil)
    obtain rfl : freelist' = freelist := h.freelist
    obtain rfl : kend' = kend := h.within.kend
    obtain rfl : trampoline' = trampoline := h.within.trampoline
    rw [hpage]
  | cons x pages ih =>
    rw [freeArgs, freeArgs, kfree, kfree, h.within.kend]
    by_cases hx : x % PGSIZE ≠ 0 ∨ x < m.kend ∨ PHYSTOP ≤ x
    · rw [if_pos hx, if_pos hx]
    · rw [if_neg hx, if_neg hx, ok_bind, ok_bind]
      refine ih ⟨congrArg (x :: ·) h.freelist, fun y hy => ?_, h.within.kend, h.within.trampoline⟩
      show update m'.page x _ y = update m.page x _ y
      by_cases hyx : y = x
      · rw [hyx, update_self, update_self]
      · rw [update_of_ne hyx, update_of_ne hyx]
        exact h.within.page y fun hc => (mem_cons.mp hc).elim hyx hy

/-- **The pages of the arguments can be freed** if they are not free. -/
theorem freeArgs_eq (hrange : ∀ x ∈ pages, m.InRange x) :
    ∃ m', freeArgs m pages = .ok m' ∧ m'.freelist = pages.reverse ++ m.freelist ∧
      Within m m' {x | x ∈ pages} := by
  induction pages generalizing m with
  | nil => exact ⟨m, rfl, rfl, Within.refl⟩
  | cons x pages ih =>
    obtain ⟨m', hm', hfree, hw⟩ := ih (fun y hy =>
      (within_kfreed (Set.mem_singleton x)).inRange.mpr (hrange y (mem_cons_of_mem _ hy)))
    refine ⟨m', ?_, ?_, ?_⟩
    · rw [freeArgs, kfree_of_inRange (hrange x mem_cons_self), ok_bind, hm']
    · rw [hfree, freelist_kfreed, reverse_cons, append_assoc, singleton_append]
    · exact (within_kfreed mem_cons_self).trans (hw.mono (fun y hy => mem_cons_of_mem _ hy))

/-! ## Reading the arguments -/

/-- The memory of a process, none of which is free. -/
structure Visible (m : Phys) (pt tr tf : ℕ) (A : AddrSpace) : Prop where
  space : m.Space pt A (procTop tr tf)
  free : ∀ x ∈ m.owned pt A, x ∉ m.freelist
  ne_zero : ∀ x ∈ m.owned pt A, x ≠ 0

/-- The page table of the process, as the copy functions see it. -/
def Visible.table (h : Visible m pt tr tf A) : UserTable :=
  h.space.userTable fun v hv => h.ne_zero _ (.inr ⟨v, hv, rfl⟩)

/-- The process does not notice that a page is taken off the free list and written to. -/
theorem Visible.take (h : Visible m pt tr tf A) (hf : m.freelist = x :: m'.freelist)
    (hw : Within m m' {x}) : Visible m' pt tr tf A := by
  have hx : x ∉ m.owned pt A := fun hc => h.free x hc (hf ▸ mem_cons_self)
  obtain ⟨hs, howned, -⟩ := h.space.of_page m' fun y hy =>
    hw.page y fun hc => hx (Set.mem_singleton_iff.mp hc ▸ hy)
  refine ⟨hs, ?_, ?_⟩
  · rw [howned]
    exact fun y hy hc => h.free y hy (hf ▸ mem_cons_of_mem _ hc)
  · rw [howned]
    exact h.ne_zero

theorem leNum_wordBytes {w : ℕ} (hw : w < 2 ^ 64) : leNum (wordBytes w) = w := by
  have hrange : range 8 = [0, 1, 2, 3, 4, 5, 6, 7] := rfl
  simp only [wordBytes, leNum, hrange, map_cons, map_nil, foldr_cons, foldr_nil, UInt8.toNat_ofNat']
  omega

section

variable (V : Visible m pt tr tf A) {a : ℕ}
include V

/-- What the address space says is in the memory of the process. -/
theorem byte_of_reads {b : UInt8} (h : A.Reads a b) : V.table.Readable a ∧ V.table.byte a = b := by
  obtain ⟨pg, hpg, hU, hb⟩ := h
  obtain ⟨hv, hflags, hleaf, hbytes⟩ := V.space.user _ pg hpg
  have hflag : ∀ k < 10, hasFlag (m.pte pt (a / PGSIZE)) (2 ^ k) = hasFlag pg.flags (2 ^ k) :=
    fun k hk => by rw [← hflags, hasFlag_PTE_FLAGS _ hk]
  refine ⟨⟨hv.trans (by decide), ?_, ?_⟩, ?_⟩
  · exact (hflag 0 (by decide)).trans hleaf.2.1
  · exact (hflag 4 (by decide)).trans hU
  · show m.page (m.frame pt (a / PGSIZE)) _ = b
    rw [hbytes, ← hb]
    rfl

/-- A word that the process can read. -/
theorem word_of_holds {w : ℕ} (hw : w < 2 ^ 64) (h : A.Holds a (wordBytes w)) :
    leNum ((List.range 8).map (fun i => V.table.byte (a + i))) = w := by
  have hbytes : (range 8).map (fun i => V.table.byte (a + i)) = wordBytes w := by
    refine ext_getElem (by simp [wordBytes]) fun i hi hi' => ?_
    rw [getElem_map, getElem_range]
    exact (byte_of_reads V (h i hi')).2
  rw [hbytes, leNum_wordBytes hw]

/-- A string that the process can read. -/
theorem stringAt_of_holds {str : List UInt8} (hne : 0 ∉ str) (h : A.Holds a (str ++ [0])) :
    V.table.StringAt a str := by
  have hlen : (str ++ [0]).length = str.length + 1 := length_append
  refine ⟨fun i hi => ?_, hne, ?_, fun i hi => ?_⟩
  · rw [(byte_of_reads V (h i (by omega))).2, getElem_append_left hi]
  · rw [(byte_of_reads V (h str.length (by omega))).2, getElem_append_right (le_refl _)]
    simp
  · exact (byte_of_reads V (h i (by omega))).1

/-- An address of user memory is not cut off. -/
theorem mod_of_reads {b : UInt8} (h : A.Reads a b) : a % 2 ^ 64 = a := by
  obtain ⟨pg, hpg, -⟩ := h
  have hv : a / 4096 < 2 ^ 26 := lt_trans (V.space.user _ pg hpg).1 (by decide)
  omega

end

/-- The page of an argument that has been read. -/
theorem setPage_of_has {buf : Buffer} {str : List UInt8} (hhas : buf.Has str)
    (hrest : ∀ i, str.length < i → buf i = (m.page x).buffer i) :
    m.setPage x (fun o => buf o) = m.write x 0 (str ++ [0]) := by
  have hpage : (fun o : Fin PGSIZE => buf o) = (m.page x).write 0 (str ++ [0]) := by
    funext o
    unfold Page.write
    rw [length_append, length_singleton]
    rcases lt_trichotomy o.val str.length with ho | ho | ho
    · rw [if_pos ⟨Nat.zero_le _, by omega⟩, hhas.byte _ ho, Nat.sub_zero,
        getD_append _ _ _ _ ho, getD_eq_getElem _ _ ho]
    · rw [if_pos ⟨Nat.zero_le _, by omega⟩, ho, hhas.null, Nat.sub_zero,
        getD_append_right _ _ _ _ (le_refl _), Nat.sub_self]
      rfl
    · rw [if_neg (by omega), hrest _ ho, buffer, dif_pos o.isLt]
  rw [hpage]
  rfl

/-- **Reading the arguments.** The loop reads them as `fetchArgs` supposes, except that it may
leave a part of a string in a page that is then freed. If it gets to the end, then it has
read the argument vector that is in the memory of the process. -/
theorem fetchArgv_eq (sz uargv : ℕ) (V : Visible m pt tr tf A) (n i : ℕ) :
    ∃ args m' pages r, fetchArgv pt sz uargv n i m = .ok (m', pages, r) ∧
      (fetchArgs n m args).2 = (pages, r) ∧ SameBut (fetchArgs n m args).1 m' pages ∧
      (r.isSome → m' = (fetchArgs n m args).1) ∧
      ∀ argv, r = some argv → argv.length < n ∧ (∀ s ∈ argv, s.length < PGSIZE) ∧
        ∀ argv', A.ArgvAt (uargv + 8 * i) argv' → argv' = argv := by
  induction n generalizing m i with
  | zero => exact ⟨[], m, [], none, rfl, rfl, .refl, (by rintro ⟨⟩), (by rintro _ ⟨⟩)⟩
  | succ n ih =>
    obtain ⟨o, ho, hword⟩ := V.table.fetchaddr_cases sz ((uargv + 8 * i) % 2 ^ 64)
    rw [fetchArgv]
    change m.fetchaddr pt sz _ = _ at ho
    rw [ho, ok_bind]
    -- the word that has been read is the one in the argument vector
    have hhead : ∀ w v, o = some w → v < 2 ^ 64 → A.Holds (uargv + 8 * i) (wordBytes v) →
        w = v := by
      intro w v hw hv hholds
      have hmod := mod_of_reads V (hholds 0 (by rw [wordBytes, length_map]; decide))
      rw [add_zero] at hmod
      rw [hword w hw, hmod, word_of_holds V hv hholds]
    cases o with
    | none => exact ⟨[.badAddr], m, [], none, rfl, rfl, .refl, (by rintro ⟨⟩), (by rintro _ ⟨⟩)⟩
    | some w =>
      dsimp only
      split_ifs with hw
      · refine ⟨[], m, [], some [], rfl, rfl, .refl, fun _ => rfl, fun argv hargv => ?_⟩
        cases hargv
        refine ⟨Nat.succ_pos n, (by rintro _ ⟨⟩), fun argv' hat => ?_⟩
        cases argv' with
        | nil => rfl
        | cons =>
          obtain ⟨⟨v, hv, hv0, hholds, -⟩, -⟩ := hat
          exact absurd ((hhead w v rfl hv hholds).symm.trans hw) hv0
      · cases hf : m.freelist with
        | nil =>
          rw [kalloc_nil hf]
          refine ⟨[.badStr], m, [], none, rfl, ?_, ?_, (by rintro ⟨⟩), (by rintro _ ⟨⟩)⟩
          · rw [fetchArgs_of_nil hf]
          · rw [fetchArgs_of_nil hf]
            exact .refl
        | cons x rest =>
          have hbad := fetchArgs_badStr (n := n) hf []
          have hgood := fetchArgs_str (n := n) hf
          rw [kalloc_cons hf]
          dsimp only
          have hw₁ : Within m ({ m with freelist := rest }.memset x 5) {x} := within_kalloc rest
          replace hf : m.freelist = x :: ({ m with freelist := rest }.memset x 5).freelist := hf
          generalize Phys.memset { m with freelist := rest } x 5 = m₁ at hbad hgood hw₁ hf ⊢
          have V₁ := V.take hf hw₁
          rcases V₁.table.fetchstr_cases (m₁.page x).buffer w PGSIZE with
            ⟨str, buf, hat, hlen, hhas, hrest, hrun⟩ | ⟨-, buf, hrun⟩
          · change m₁.fetchstr pt _ w PGSIZE = _ at hrun
            rw [hrun, ok_bind]
            rw [if_neg (not_lt.mpr (Int.natCast_nonneg _)), setPage_of_has hhas hrest,
              hhas.cstr_eq hlen]
            have V₂ : Visible (m₁.write x 0 (str ++ [0])) pt tr tf A :=
              V.take hf (hw₁.trans (within_setPage (Set.mem_singleton x) _))
            obtain ⟨args, m', pages, _, hrun', hargs, hsame, hsome, hr⟩ := ih V₂ (i + 1)
            rw [hrun', ok_bind]
            refine ⟨.str str :: args, m', x :: pages, _, rfl, ?_, ?_, ?_, ?_⟩
            · rw [hgood, Prod.map_snd, hargs]
              rfl
            · rw [hgood]
              exact ⟨hsame.freelist, hsame.within.mono (fun y hy => mem_cons_of_mem _ hy)⟩
            · rw [hgood, isSome_map]
              exact hsome
            · intro argv hargv
              obtain ⟨argv₁, hr₁, rfl⟩ := map_eq_some_iff.mp hargv
              obtain ⟨hlt, hshort, huniq⟩ := hr argv₁ hr₁
              refine ⟨Nat.succ_lt_succ hlt, forall_mem_cons.mpr ⟨hlen, hshort⟩,
                fun argv' hat' => ?_⟩
              cases argv' with
              | nil => exact absurd (hhead w 0 rfl (by decide) hat') hw
              | cons s argv' =>
                obtain ⟨⟨v, hv, -, hholds, hs0, hstr⟩, htail⟩ := hat'
                obtain rfl := hhead w v rfl hv hholds
                rw [(stringAt_of_holds V₁ hs0 hstr).unique hat,
                  huniq argv' (by rw [Nat.mul_succ, ← add_assoc]; exact htail)]
          · change m₁.fetchstr pt _ w PGSIZE = _ at hrun
            rw [hrun, ok_bind]
            dsimp only
            rw [if_pos (by decide)]
            refine ⟨[.badStr], _, [x], none, rfl, ?_, ?_, (by rintro ⟨⟩), (by rintro _ ⟨⟩)⟩
            · rw [hbad]
            · rw [hbad]
              exact ⟨rfl, within_setPage mem_cons_self _⟩

/-! ## The call -/

theorem Taken.mem_free (h : Taken m m' pages) (hx : x ∈ pages) : x ∈ m.freelist := by
  rw [h.freelist]
  exact mem_append_left _ hx

theorem Taken.free_sub (h : Taken m m' pages) : ∀ x ∈ m'.freelist, x ∈ m.freelist := by
  intro x hx
  rw [h.freelist]
  exact mem_append_right _ hx

/-- The process does not notice that pages have been taken. -/
theorem Lives.of_taken (hl : s.Lives p pt tf A) (h : Taken s.mem m pages) :
    { s with mem := m }.Lives p pt tf A ∧ m.owned pt A = s.mem.owned pt A := by
  obtain ⟨hs, howned, -⟩ := hl.space.of_page m (fun x hx =>
    h.within.page x (fun hc => hl.free x (.inr hx) (h.mem_free hc)))
  refine ⟨⟨hl.pagetable, hl.trapframe, ?_, hl.spans, ?_, ?_, howned ▸ hl.sep⟩, howned⟩
  · rw [h.within.trampoline]
    exact hs
  · rw [howned]
    exact fun x hx => h.within.inRange.mpr (hl.range x hx)
  · rw [howned]
    exact fun x hx hc => hl.free x hx (h.free_sub x hc)

theorem Ok.of_taken (h : s.Ok p) (ht : Taken s.mem m pages) : { s with mem := m }.Ok p where
  pool := by
    have hnodup := h.pool.nodup
    rw [ht.freelist] at hnodup
    exact ⟨(nodup_append.mp hnodup).2.1, fun _ => Iff.rfl, fun x hx =>
      ht.within.inRange.mpr (h.pool.range x (ht.free_sub x hx))⟩
  trampoline := by
    rw [ht.within.trampoline]
    exact h.trampoline
  blank := h.blank
  fs := h.fs
  cwd := h.cwd
  nextpid := h.nextpid

/-- The call, after the arguments have been read. -/
theorem sysExec_some {o : Option (List (List UInt8))}
    (hf : fetchArgs MAXARG s.mem args = (m, pages, o)) (path : List UInt8) :
    s.sysExec p (some path) args =
      (o.elim (.ok ({ s with mem := m }, -1)) ({ s with mem := m }.exec p path) >>= fun x =>
        freeArgs x.1.mem pages >>= fun m => .ok ({ x.1 with mem := m }, x.2)) := by
  rw [sysExec, hf]
  cases o <;> rfl

theorem Lives.visible (hl : s.Lives p pt tf A) (hk : 0 < s.mem.kend) :
    Visible s.mem pt s.mem.trampoline tf A := by
  refine ⟨hl.space, fun x hx => hl.free x (.inr hx), fun x hx => ?_⟩
  have hr := (hl.range x (.inr hx)).2.1
  omega

/-- **The call with its arguments read.** If all of them could be read, then they are the
argument vector that is in the memory of the process, and there are fewer than `MAXARG`. -/
theorem sysExecUser_eq (hl : s.Lives p pt tf A) (hk : 0 < s.mem.kend) (path : Buffer) :
    ∃ path₀ args, s.sysExecUser p path = s.sysExec p path₀ args ∧
      ∀ argv, (fetchArgs MAXARG s.mem args).2.2 = some argv → argv.length < MAXARG ∧
        (∀ s ∈ argv, s.length < PGSIZE) ∧ ∀ argv', A.ArgvAt (s.reg p .a1) argv' → argv' = argv := by
  have V := hl.visible hk
  have hreg : s.reg p .a1 = s.mem.entry tf Reg.a1.index := by
    rw [reg, hl.trapframe]
    rfl
  obtain ⟨args, m', pages, r, hrun, hargs, hsame, hsome, hr⟩ :=
    fetchArgv_eq (s.proc p).sz (s.mem.entry tf Reg.a1.index) V MAXARG 0
  unfold sysExecUser
  rw [hl.pagetable, hl.trapframe]
  simp only [deref, ok_bind]
  rcases V.table.fetchstr_cases path (s.mem.entry tf Reg.a0.index) MAXPATH with
    ⟨str, buf, -, hlen, hhas, -, hpath⟩ | ⟨-, buf, hpath⟩
  · change s.mem.fetchstr pt path _ MAXPATH = _ at hpath
    refine ⟨some str, args, ?_, fun argv hargv => ?_⟩
    · rw [hpath, ok_bind]
      rw [if_neg (not_lt.mpr (Int.natCast_nonneg _)), hrun, ok_bind, hhas.cstr_eq hlen]
      rw [sysExec_some (show fetchArgs MAXARG s.mem args = (_, pages, r) from Prod.ext rfl hargs)]
      cases r with
      | some =>
        rw [hsome rfl]
        rfl
      | none =>
        show (freeArgs m' pages >>= _) = (freeArgs _ pages >>= _)
        rw [freeArgs_congr hsame]
    · rw [hargs] at hargv
      obtain ⟨hlt, hshort, huniq⟩ := hr argv hargv
      rw [mul_zero, add_zero, ← hreg] at huniq
      exact ⟨hlt, hshort, huniq⟩
  · change s.mem.fetchstr pt path _ MAXPATH = _ at hpath
    refine ⟨none, [.badAddr], ?_, (by rintro _ ⟨⟩)⟩
    rw [hpath, ok_bind]
    rfl

/-- `exec` does not move the end of the kernel. -/
theorem exec_kend {path : List UInt8} (h : s.Ok p) (hl : s.Lives p pt tf A)
    (hrun : s.exec p path argv = .ok (s', r)) : s'.mem.kend = s.mem.kend := by
  cases exec_cases h.ready hl hrun with
  | failed _ hw => exact hw.kend
  | done _ _ _ ho _ hw hrun =>
    obtain ⟨_, hm', -, -, -, hw', -⟩ := hl.execCommit _ path _ _ _ _ ho hw
    rw [hm'] at hrun
    cases hrun
    exact hw'.kend.trans hw.kend

/-- The pages of the arguments can be freed after `exec`. -/
theorem freeArgs_exec {path : List UInt8} {s₁ : System} (h : s.Ok p) (hl : s.Lives p pt tf A)
    (ht : Taken s.mem m pages) (hrun : { s with mem := m }.exec p path argv = .ok (s₁, r)) :
    ∃ m', freeArgs s₁.mem pages = .ok m' ∧ m'.freelist = pages.reverse ++ s₁.mem.freelist ∧
      Within s₁.mem m' {x | x ∈ pages} := by
  refine freeArgs_eq fun x hx => ?_
  have hkend : s₁.mem.kend = s.mem.kend :=
    (exec_kend (h.of_taken ht) (hl.of_taken ht).1 hrun).trans ht.within.kend
  have hr := h.pool.range x (ht.mem_free hx)
  unfold InRange at hr ⊢
  rw [hkend]
  exact hr

/-- **The faults of the call** are those of the file system and of `exec`. -/
theorem sysExec_error {e : Fault} (h : s.Ok p) (hl : s.Lives p pt tf A)
    (hrun : s.sysExec p path args = .error e) :
    ∃ path₀ argv, (fetchArgs MAXARG s.mem args).2.2 = some argv ∧
      (s.fs.fileCalls (s.proc p).cwd path₀ = .error e ∨ (e = .ustack ∧ MAXARG ≤ argv.length)) := by
  cases path with
  | none => cases hrun
  | some path₀ =>
    have ht := fetchArgs_taken MAXARG s.mem args
    rcases hf : fetchArgs MAXARG s.mem args with ⟨m₁, pages, o⟩
    rw [hf] at ht
    rw [sysExec_some hf] at hrun
    cases o with
    | none =>
      obtain ⟨m', hm', -⟩ := freeArgs_eq (fun x (hx : x ∈ pages) =>
        ht.within.inRange.mpr (h.pool.range x (ht.mem_free hx)))
      rw [elim_none, ok_bind, hm'] at hrun
      cases hrun
    | some argv =>
      refine ⟨path₀, argv, rfl, ?_⟩
      rcases error_or_of_bind_eq_error hrun with hexec | ⟨⟨s₁, r₁⟩, hexec, hrun⟩
      · exact exec_error (s := { s with mem := m₁ }) (h.of_taken ht).ready (hl.of_taken ht).1 hexec
      · obtain ⟨m', hm', -⟩ := freeArgs_exec h hl ht hexec
        rw [hm'] at hrun
        cases hrun

/-- **A call that succeeds** is an `exec` with the arguments, and the pages that the
arguments were in are freed after it. -/
theorem sysExec_done (hrun : s.sysExec p path args = .ok (s', r)) (hr : r ≠ -1) :
    ∃ path₀ argv s₁ m₁ m₂ pages, fetchArgs MAXARG s.mem args = (m₁, pages, some argv) ∧
      { s with mem := m₁ }.exec p path₀ argv = .ok (s₁, r) ∧
      freeArgs s₁.mem pages = .ok m₂ ∧ s' = { s₁ with mem := m₂ } := by
  cases path with
  | none => exact absurd (Prod.mk.inj (Except.ok.inj hrun)).2.symm hr
  | some path₀ =>
    rcases hf : fetchArgs MAXARG s.mem args with ⟨m₁, pages, o⟩
    rw [sysExec_some hf] at hrun
    obtain ⟨⟨s₁, _⟩, hexec, hrun⟩ := exists_of_bind_eq_ok hrun
    obtain ⟨m₂, hfree, hrun⟩ := exists_of_bind_eq_ok hrun
    cases hrun
    cases o with
    | none => exact absurd (Prod.mk.inj (Except.ok.inj hexec)).2.symm hr
    | some argv => exact ⟨path₀, argv, s₁, m₁, m₂, pages, rfl, hexec, hfree, rfl⟩

/-- **The arguments survive `exec`.** If the call succeeds, then the new program gets the
number of arguments in `a0` and in `a1` the address of an array with a pointer to a copy of
each of them, on its stack; if there is not enough room for them on the stack, then the call
fails. No more than `MAXARG` pointers are collected. -/
theorem args_survive (h : s.Ok p) (hl : s.Lives p pt tf A) (hk : 0 < s.mem.kend)
    (hargv : (s.userMemory p).ArgvAt (s.reg p .a1) argv) (path : Buffer) :
    s.sysExecUser p path ≠ .error .ustack ∧
    ∀ s' r s'', s.sysExecUser p path = .ok (s', r) → s'.syscallReturn p r = .ok s'' →
      (r ≠ -1 → s''.reg p .a0 = argv.length ∧ argv.length < MAXARG ∧ s''.reg p .sp = s''.reg p .a1 ∧
        ∃ ptrs, (s''.userMemory p).ArgsAt (s''.proc p).sz (s''.reg p .a1) argv ptrs) ∧
      (USERSTACK * PGSIZE < AddrSpace.stackUse argv → r = -1) := by
  rw [hl.userMemory] at hargv
  obtain ⟨_, args, heq, hread⟩ := sysExecUser_eq hl hk path
  rw [heq]
  refine ⟨fun herr => ?_, fun s' r s'' hrun hret => ?_⟩
  · obtain ⟨path₁, argv₁, hf, hfs | ⟨-, hlong⟩⟩ := sysExec_error h hl herr
    · exact absurd (Fs.fileCalls_error hfs) (by decide)
    · exact absurd (hread argv₁ hf).1 hlong.not_gt
  -- what a successful call has done
  have hdone : r ≠ -1 → AddrSpace.stackUse argv ≤ USERSTACK * PGSIZE ∧
      s''.reg p .a0 = argv.length ∧ argv.length < MAXARG ∧ s''.reg p .sp = s''.reg p .a1 ∧
      ∃ ptrs, (s''.userMemory p).ArgsAt (s''.proc p).sz (s''.reg p .a1) argv ptrs := by
    intro hr
    obtain ⟨path₁, argv₁, s₁, m₁, m₂, pages, hf, hexec, hfree, rfl⟩ := sysExec_done hrun hr
    have ht := fetchArgs_taken MAXARG s.mem args
    rw [hf] at ht
    obtain ⟨hlt, hshort, huniq⟩ := hread argv₁ (by rw [hf])
    obtain rfl := huniq argv hargv
    obtain ⟨m', hm', -, hw⟩ := freeArgs_exec h hl ht hexec
    obtain rfl : m₂ = m' := Except.ok.inj (hfree.symm.trans hm')
    obtain ⟨_, _, img, pt', -, hload, hle, rfl, hproc, -, -, ⟨_, hspace⟩, hsub, Q, hQ⟩ :=
      exec_done (h.of_taken ht) (hl.of_taken ht).1 hexec hr
    have hsz : img.sz < 2 ^ 64 := hle.trans_lt (by decide)
    obtain ⟨_, -, huse, ptrs, hat⟩ := AddrSpace.loadFile_argsAt hsz hshort hload
    have hsp : img.sp < 2 ^ 64 := by
      have hroom := hat.room
      omega
    -- the trapframe and the new pages are not those of the arguments
    have hnodup := h.pool.nodup
    rw [ht.freelist] at hnodup
    have hdis : ∀ x ∈ m₁.freelist, x ∉ pages := fun x hx hc =>
      (nodup_append.mp hnodup).2.2 x hc x hx rfl
    have htf : tf ∉ s.mem.freelist := hl.free tf (.inl rfl)
    have hP : (s₁.proc p) = { s.proc p with
        name := safestrcpy (lastElem path₁) 16, pagetable := some pt', sz := img.sz } := by
      rw [hproc, setProc_proc_self]
    have htf₁ : (s₁.proc p).trapframe = some tf := by rw [hP]; exact hl.trapframe
    have hargc' : ((img.argc : ℤ) % 2 ^ 64).toNat = argv.length := by
      have hlt' : argv.length < 32 := hlt
      omega
    unfold syscallReturn at hret
    rw [htf₁, hargc'] at hret
    cases hret
    have hpage : m₂.page tf = s₁.mem.page tf := hw.page tf (fun hc => htf (ht.mem_free hc))
    have hreg : ∀ r, reg { s₁ with mem := m₂.setEntry tf Reg.a0.index argv.length } p r =
        ((((setWord Q Reg.a1.index img.sp).setWord Reg.epc.index
          img.entry).setWord Reg.sp.index img.sp).setWord Reg.a0.index argv.length).word
            r.index := by
      intro r
      rw [reg, htf₁, elim_some, setEntry_page, update_self, hpage, hQ]
    have ha1 : reg { s₁ with mem := m₂.setEntry tf Reg.a0.index argv.length } p .a1 = img.sp := by
      rw [hreg, word_setWord_of_ne _ (by decide), word_setWord_of_ne _ (by decide),
        word_setWord_of_ne _ (by decide), word_setWord_self _ _ hsp]
    have hnew : userMemory { s₁ with mem := m₂.setEntry tf Reg.a0.index argv.length } p =
        img.pages := by
      rw [userMemory, hP, elim_some]
      refine (hspace.of_page _ (fun x hx => ?_)).1.userPages
      have hx' : x ∈ m₁.freelist := hsub hx
      have hne : x ≠ tf := fun he => htf (ht.free_sub tf (he ▸ hx'))
      rw [setEntry_page, update_of_ne hne, hw.page x (hdis x hx')]
    refine ⟨huse, ?_, hlt, ?_, ptrs, ?_⟩
    · rw [hreg, word_setWord_self _ _ (hlt.trans (by decide))]
    · rw [ha1, hreg, word_setWord_of_ne _ (by decide), word_setWord_self _ _ hsp]
    · rw [ha1, hnew, hP]
      exact hat
  refine ⟨fun hr => (hdone hr).2, fun huse => ?_⟩
  by_contra hr
  exact absurd (hdone hr).1 huse.not_ge

/-! ## A call that succeeds -/

/-- `sys_exec` up to the commit, for a process with the page table `pt` and the trapframe
`tf`. -/
def loadUser (s : System) (p : Slot) (pt tf : ℕ) (path : Buffer) : Except Fault Load := do
  let (path, r) ← s.mem.fetchstr pt path (s.mem.entry tf Reg.a0.index) MAXPATH
  if r < 0 then .error .nullPointer
  else do
    let (m, _, argv) ← fetchArgv pt (s.proc p).sz (s.mem.entry tf Reg.a1.index) MAXARG 0 s.mem
    let argv ← deref argv
    { s with mem := m }.loadOnly p tf (path.cstr MAXPATH) argv

/-- Committing cannot fail, and the pages of the arguments can be freed. -/
theorem sysExecUser_of_loadUser {sp argc : ℕ} {path : Buffer} (h : s.Ok p)
    (hl : s.Lives p pt tf A) (hk : 0 < s.mem.kend)
    (hload : s.loadUser p pt tf path = .ok (.done sz sp argc)) :
    ∃ s', s.sysExecUser p path = .ok (s', argc) ∧ (s'.proc p).trapframe = some tf := by
  obtain ⟨⟨buf, r⟩, hpath, hload⟩ := exists_of_bind_eq_ok hload
  dsimp only at hload
  split_ifs at hload with hr
  obtain ⟨⟨m, pages, o⟩, hargs, hload⟩ := exists_of_bind_eq_ok hload
  obtain ⟨argv, ho, hload⟩ := exists_of_bind_eq_ok hload
  obtain rfl := eq_some_of_deref ho
  have ht : Taken s.mem m pages := by
    obtain ⟨args, m', pages', _, hargs', hfetch, -, hsome, -⟩ :=
      fetchArgv_eq (s.proc p).sz (s.mem.entry tf Reg.a1.index) (hl.visible hk) MAXARG 0
    cases hargs.symm.trans hargs'
    have ht := fetchArgs_taken MAXARG s.mem args
    rwa [hfetch, ← hsome rfl] at ht
  obtain ⟨s₁, hexec⟩ := exec_of_loadOnly (h.of_taken ht) (hl.of_taken ht).1 hload
  obtain ⟨m', hm', -⟩ := freeArgs_exec h hl ht hexec
  refine ⟨{ s₁ with mem := m' }, ?_, ?_⟩
  · unfold sysExecUser
    rw [hl.pagetable, hl.trapframe]
    simp only [deref, ok_bind, hpath, if_neg hr, hargs, hexec, hm']
  · obtain ⟨_, _, _, _, -, -, -, -, hproc, -⟩ := exec_done (h.of_taken ht) (hl.of_taken ht).1 hexec
      (by omega)
    show (s₁.proc p).trapframe = some tf
    rw [hproc, setProc_proc_self]
    exact hl.trapframe

/-- What a process has in its page for `exec`: the addresses of two arguments and a null
pointer, and then the path, which is the first argument, and the second one. -/
def argBytes : List UInt8 :=
  wordBytes 32 ++ wordBytes 40 ++ wordBytes 0 ++ List.replicate 8 0 ++
    [slash, 97, 0, 0, 0, 0, 0, 0] ++ [120, 0]

/-- The process calls `exec` with these arguments. -/
def argMachine : System :=
  userMachine (oneByteElf 0) (freePages 19) (fun o => argBytes.getD o 0)
    (setWord (fun _ => 0) Reg.a0.index 32)

/-- Bytes in the page of the process. -/
theorem holds_userPage (bytes : List UInt8) (a : ℕ) (bs : List UInt8)
    (hlen : a + bs.length ≤ PGSIZE) (h : bs <+: bytes.drop a) :
    (userPage fun o => bytes.getD o 0).Holds a bs := by
  intro i hi
  have hlt : a + i < PGSIZE := by omega
  refine ⟨⟨PTE_R ||| PTE_U ||| PTE_W ||| PTE_V, fun o => bytes.getD o 0⟩, ?_,
    (by decide : hasFlag (PTE_R ||| PTE_U ||| PTE_W ||| PTE_V) PTE_U = true), ?_⟩
  · rw [Nat.div_eq_of_lt hlt]
    exact update_self ..
  · have hget := h.getElem hi
    rw [getElem_drop] at hget
    simp only [Nat.mod_eq_of_lt hlt]
    rw [hget, getD_eq_getElem]

/-- A program is executed with two arguments, and finds them on its stack. -/
theorem args_survive_two_args : ∃ s' s'' ptrs,
    argMachine.sysExecUser 0 (fun _ => 0) = .ok (s', 2) ∧ s'.syscallReturn 0 2 = .ok s'' ∧
    s''.reg 0 .a0 = 2 ∧ s''.reg 0 .sp = s''.reg 0 .a1 ∧
    (s''.userMemory 0).ArgsAt (s''.proc 0).sz (s''.reg 0 .a1) [[slash, 97], [120]] ptrs := by
  obtain ⟨hok, hk, hl⟩ : argMachine.Ok 0 ∧ 0 < argMachine.mem.kend ∧
      argMachine.Lives 0 rootPage 0x87fff000 (userPage fun o => argBytes.getD o 0) :=
    userMachine_ok _ _ _ _ (by decide +kernel) (by decide +kernel) (by decide +kernel)
      (by decide +kernel)
  have ha1 : argMachine.reg 0 .a1 = 0 := by decide +kernel
  have hargv : (argMachine.userMemory 0).ArgvAt (argMachine.reg 0 .a1) [[slash, 97], [120]] := by
    rw [ha1, hl.userMemory]
    have hholds := holds_userPage argBytes
    exact ⟨⟨32, by decide, by decide, hholds _ _ (by decide) (by decide), by decide,
        hholds _ _ (by decide) (by decide)⟩,
      ⟨40, by decide, by decide, hholds _ _ (by decide) (by decide), by decide,
        hholds _ _ (by decide) (by decide)⟩, hholds _ _ (by decide) (by decide)⟩
  have hload : loads (argMachine.loadUser 0 rootPage 0x87fff000 fun _ => 0) 2 = true := by
    decide +kernel
  obtain ⟨_, _, hload⟩ := exists_of_loads hload
  obtain ⟨s', hrun, htf⟩ := sysExecUser_of_loadUser hok hl hk hload
  have hret : s'.syscallReturn 0 2 =
      .ok { s' with mem := s'.mem.setEntry 0x87fff000 Reg.a0.index 2 } := by
    rw [syscallReturn, htf]
    rfl
  obtain ⟨ha0, -, hsp, ptrs, hat⟩ := ((args_survive hok hl hk hargv _).2 _ _ _ hrun hret).1
    (by decide)
  exact ⟨s', _, ptrs, hrun, hret, ha0, hsp, hat⟩

end System

end Xv6
