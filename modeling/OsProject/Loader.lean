import OsProject.Inodes
import OsProject.ProcTable
import OsProject.UserMem

/-!
# Loading a program

What `exec` and `spawn` (`exec.c`) have in common: the check of the ELF header,
the loop over the program headers, and the building of the user stack. The two
functions contain the same text for this, on different page tables.

Each part comes twice. In `Phys` it is the code, on page tables in physical
memory, which can run out of memory anywhere. In `AddrSpace` it is the same
computation on address spaces, where memory is unlimited; it says what a file
and an argument vector are loaded to (`AddrSpace.loadFile`). The code refines it:
what it loads when it succeeds is this, and when it fails, the page table still
maps exactly the pages below the size it reports, so that it can be freed.

File offsets and sizes are `uint` or `int` in the code and are cut to 32 bits
where the code does so.
-/

namespace Xv6

open Function (update update_of_ne update_self update_apply)

/-- Maximal number of arguments (`param.h`). -/
abbrev MAXARG : ℕ := 32

/-- Pages of the user stack (`param.h`). -/
abbrev USERSTACK : ℕ := 1

/-- The first four bytes of an ELF file (`elf.h`). -/
abbrev ELF_MAGIC : ℕ := 0x464C457F

/-- The type of a segment that is loaded (`elf.h`). -/
abbrev ELF_PROG_LOAD : ℕ := 1

/-- `sizeof(struct elfhdr)`. -/
abbrev elfhdrSize : ℕ := 64

/-- `sizeof(struct proghdr)`. -/
abbrev proghdrSize : ℕ := 56

/-- A number stored with its least significant byte first. -/
def leNum (bs : List UInt8) : ℕ := bs.foldr (fun b n => b.toNat + 256 * n) 0

/-- The 8 bytes of a word, least significant first. -/
def wordBytes (w : ℕ) : List UInt8 := (List.range 8).map (fun k => UInt8.ofNat (w / 256 ^ k))

/-- The field of `n` bytes at offset `off`. -/
def field (bs : List UInt8) (off n : ℕ) : ℕ := leNum ((bs.drop off).take n)

/-- `a - b` on `uint64`. -/
def sub64 (a b : ℕ) : ℕ := (a + 2 ^ 64 - b % 2 ^ 64) % 2 ^ 64

/-- The fields of `struct elfhdr` that are used. -/
structure ElfHdr where
  magic : ℕ
  entry : ℕ
  phoff : ℕ
  phnum : ℕ

/-- The fields of `struct proghdr` that are used. -/
structure ProgHdr where
  type : ℕ
  flags : ℕ
  off : ℕ
  vaddr : ℕ
  filesz : ℕ
  memsz : ℕ

/-- The header in the bytes that were read. -/
def ElfHdr.ofBytes (bs : List UInt8) : ElfHdr where
  magic := field bs 0 4
  entry := field bs 24 8
  phoff := field bs 32 8
  phnum := field bs 56 2

/-- The program header in the bytes that were read. -/
def ProgHdr.ofBytes (bs : List UInt8) : ProgHdr where
  type := field bs 0 4
  flags := field bs 4 4
  off := field bs 8 8
  vaddr := field bs 16 8
  filesz := field bs 32 8
  memsz := field bs 40 8

/-- The checks of the ELF header: a full header is read, and it has the magic
number. -/
def elfHeader (data : List UInt8) : Option ElfHdr :=
  let bs := readi data 0 elfhdrSize
  if bs.length ≠ elfhdrSize then none
  else if (ElfHdr.ofBytes bs).magic ≠ ELF_MAGIC then none
  else some (ElfHdr.ofBytes bs)

/-- `flags2perm`. -/
def flags2perm (flags : ℕ) : ℕ :=
  (if hasFlag flags 1 then PTE_X else 0) ||| (if hasFlag flags 2 then PTE_W else 0)

/-- Whether a program header is rejected before anything is allocated. -/
def ProgHdr.bad (ph : ProgHdr) : Prop :=
  ph.memsz < ph.filesz ∨ (ph.vaddr + ph.memsz) % 2 ^ 64 < ph.vaddr ∨ ph.vaddr % PGSIZE ≠ 0

instance (ph : ProgHdr) : Decidable ph.bad := inferInstanceAs (Decidable (_ ∨ _ ∨ _))

/-- The bytes that `loadseg` reads in a round: a page, or what is left. -/
def chunk (sz i : ℕ) : ℕ := if sz - i < PGSIZE then sz - i else PGSIZE

/-- The stack pointer after `n` bytes were pushed. -/
def pushed (sp n : ℕ) : ℕ := sub64 sp n - sub64 sp n % 16

/-! ## The code -/

namespace Phys

/-- The loop of `loadseg`, at offset `i` with `n` pages left. What was read is
in the page even if it was too little. -/
def loadsegLoop (data : List UInt8) (pagetable va offset sz : ℕ) :
    Phys → ℕ → ℕ → Except Fault (Phys × Bool)
  | m, _, 0 => .ok (m, true)
  | m, i, n + 1 => do
    let pa ← m.walkaddr pagetable (va + i)
    match pa with
    | none => .error .loadseg
    | some pa =>
      let bs := readi data ((offset + i) % 2 ^ 32) (chunk sz i)
      if bs.length ≠ chunk sz i then .ok (m.write pa 0 bs, false)
      else loadsegLoop data pagetable va offset sz (m.write pa 0 bs) (i + PGSIZE) n

/-- `loadseg`; `offset` and `sz` are `uint`. -/
def loadseg (m : Phys) (data : List UInt8) (pagetable va offset sz : ℕ) :
    Except Fault (Phys × Bool) :=
  loadsegLoop data pagetable va offset sz m 0 ((sz + PGSIZE - 1) / PGSIZE)

/-- The loop over the program headers, with `n` headers left. The result is the
size of the address space, and whether the loop was left early. -/
def loadSegs (data : List UInt8) (pagetable : ℕ) :
    ℕ → Phys → ℕ → ℕ → Except Fault (Phys × ℕ × Bool)
  | 0, m, _, sz => .ok (m, sz, true)
  | n + 1, m, off, sz =>
    let bs := readi data off proghdrSize
    let ph := ProgHdr.ofBytes bs
    if bs.length ≠ proghdrSize then .ok (m, sz, false)
    else if ph.type ≠ ELF_PROG_LOAD then
      loadSegs data pagetable n m ((off + proghdrSize) % 2 ^ 32) sz
    else if ph.bad then .ok (m, sz, false)
    else do
      let (m, sz1) ← m.uvmalloc pagetable sz ((ph.vaddr + ph.memsz) % 2 ^ 64)
        (flags2perm ph.flags)
      if sz1 = 0 then .ok (m, sz, false)
      else do
        let (m, ok) ← m.loadseg data pagetable ph.vaddr (ph.off % 2 ^ 32) (ph.filesz % 2 ^ 32)
        if ok then loadSegs data pagetable n m ((off + proghdrSize) % 2 ^ 32) sz1
        else .ok (m, sz1, false)

/-- The loop that pushes the argument strings. The result is the stack pointer
with the addresses of the strings. -/
def pushArgs (pagetable stackbase : ℕ) :
    List (List UInt8) → Phys → ℕ → List ℕ → Except Fault (Phys × Option (ℕ × List ℕ))
  | [], m, sp, ustack => .ok (m, some (sp, ustack))
  | s :: argv, m, sp, ustack =>
    if MAXARG ≤ ustack.length then .ok (m, none)
    else if pushed sp (s.length + 1) < stackbase then .ok (m, none)
    else do
      let (m, ok) ← m.copyout pagetable (pushed sp (s.length + 1)) (s ++ [0])
      if ok then
        pushArgs pagetable stackbase argv m (pushed sp (s.length + 1))
          (ustack ++ [pushed sp (s.length + 1)])
      else .ok (m, none)

/-- The user stack: a guard page and the stack pages above the program, with
the arguments. The result is the size of the address space and, on success, the
stack pointer and the number of arguments. -/
def buildStack (m : Phys) (pagetable sz : ℕ) (argv : List (List UInt8)) :
    Except Fault (Phys × ℕ × Option (ℕ × ℕ)) := do
  let sz := PGROUNDUP sz
  let (m, sz1) ← m.uvmalloc pagetable sz ((sz + (USERSTACK + 1) * PGSIZE) % 2 ^ 64) PTE_W
  if sz1 = 0 then .ok (m, sz, none)
  else do
    let m ← m.uvmclear pagetable (sz1 - (USERSTACK + 1) * PGSIZE)
    let (m, r) ← pushArgs pagetable (sz1 - USERSTACK * PGSIZE) argv m sz1 []
    match r with
    | none => .ok (m, sz1, none)
    | some (sp, ustack) =>
      let sp := pushed sp ((ustack.length + 1) * 8)
      -- `ustack[argc] = 0`
      if MAXARG ≤ ustack.length then .error .ustack
      else if sp < sz1 - USERSTACK * PGSIZE then .ok (m, sz1, none)
      else do
        let (m, ok) ← m.copyout pagetable sp ((ustack ++ [0]).flatMap wordBytes)
        .ok (m, sz1, if ok then some (sp, ustack.length) else none)

end Phys

/-! ## The same on address spaces -/

namespace AddrSpace

open Phys (npages)

/-- The flags of a page that `uvmalloc` maps. -/
def pageFlags (xperm : ℕ) : ℕ := PTE_R ||| PTE_U ||| xperm ||| PTE_V

/-- `uvmalloc`, with memory for every page. -/
def uvmalloc (A : AddrSpace) (oldsz newsz xperm : ℕ) : AddrSpace × ℕ :=
  if newsz < oldsz then (A, oldsz)
  else (A.grow (npages oldsz) (npages newsz - npages oldsz) (pageFlags xperm), newsz)

/-- The loop of `loadseg`. -/
def loadsegLoop (data : List UInt8) (va offset sz : ℕ) : AddrSpace → ℕ → ℕ → Option AddrSpace
  | A, _, 0 => some A
  | A, i, n + 1 =>
    match A ((va + i) / PGSIZE) with
    | none => none
    | some pg =>
      let bs := readi data ((offset + i) % 2 ^ 32) (chunk sz i)
      if bs.length ≠ chunk sz i then none
      else
        loadsegLoop data va offset sz
          (update A ((va + i) / PGSIZE) (some ⟨pg.flags, Page.write pg.bytes 0 bs⟩))
          (i + PGSIZE) n

/-- `loadseg`. -/
def loadseg (A : AddrSpace) (data : List UInt8) (va offset sz : ℕ) : Option AddrSpace :=
  loadsegLoop data va offset sz A 0 (npages sz)

/-- The loop over the program headers. -/
def loadSegs (data : List UInt8) : ℕ → AddrSpace → ℕ → ℕ → Option (AddrSpace × ℕ)
  | 0, A, _, sz => some (A, sz)
  | n + 1, A, off, sz =>
    let bs := readi data off proghdrSize
    let ph := ProgHdr.ofBytes bs
    if bs.length ≠ proghdrSize then none
    else if ph.type ≠ ELF_PROG_LOAD then loadSegs data n A ((off + proghdrSize) % 2 ^ 32) sz
    else if ph.bad then none
    else
      let r := A.uvmalloc sz ((ph.vaddr + ph.memsz) % 2 ^ 64) (flags2perm ph.flags)
      if r.2 = 0 then none
      else
        match r.1.loadseg data ph.vaddr (ph.off % 2 ^ 32) (ph.filesz % 2 ^ 32) with
        | none => none
        | some A => loadSegs data n A ((off + proghdrSize) % 2 ^ 32) r.2

/-- The loop that pushes the argument strings. -/
def pushArgs (stackbase : ℕ) :
    List (List UInt8) → AddrSpace → ℕ → List ℕ → Option (AddrSpace × ℕ × List ℕ)
  | [], A, sp, ustack => some (A, sp, ustack)
  | s :: argv, A, sp, ustack =>
    if MAXARG ≤ ustack.length then none
    else if pushed sp (s.length + 1) < stackbase then none
    else
      let r := A.copyout (pushed sp (s.length + 1)) (s ++ [0])
      if r.2 then
        pushArgs stackbase argv r.1 (pushed sp (s.length + 1))
          (ustack ++ [pushed sp (s.length + 1)])
      else none

/-- The user stack above `n` pages. -/
def buildStack (A : AddrSpace) (n : ℕ) (argv : List (List UInt8)) :
    Option (AddrSpace × ℕ × ℕ × ℕ) :=
  let sz := (n + (USERSTACK + 1)) * PGSIZE
  let A := (A.grow n (USERSTACK + 1) (pageFlags PTE_W)).clear n
  match pushArgs (sz - USERSTACK * PGSIZE) argv A sz [] with
  | none => none
  | some (A, sp, ustack) =>
    let sp := pushed sp ((ustack.length + 1) * 8)
    if MAXARG ≤ ustack.length then none
    else if sp < sz - USERSTACK * PGSIZE then none
    else
      let r := A.copyout sp ((ustack ++ [0]).flatMap wordBytes)
      if r.2 then some (r.1, sz, sp, ustack.length) else none

/-- What a file with these bytes and these arguments is loaded to. -/
def loadFile (data : List UInt8) (argv : List (List UInt8)) : Option Image :=
  match elfHeader data with
  | none => none
  | some elf =>
    match loadSegs data elf.phnum empty (elf.phoff % 2 ^ 32) 0 with
    | none => none
    | some (A, sz) =>
      match A.buildStack (npages sz) argv with
      | none => none
      | some (A, sz, sp, argc) =>
        some { pages := A, sz := sz, entry := elf.entry, sp := sp, argc := argc }

/-- The state of an address space while segments are loaded: the first `n` pages
are mapped, all of them for user mode. -/
structure Loading (A : AddrSpace) (n : ℕ) : Prop where
  spans : A.Spans n
  user : ∀ v pg, A v = some pg → hasFlag pg.flags PTE_U = true

variable {A : AddrSpace} {v n k : ℕ}

theorem Loading.empty : Loading empty 0 := ⟨spans_empty, fun v pg hc => by cases hc⟩

theorem Loading.grow {f : ℕ} (h : A.Loading n) (hk : n ≤ k) (hf : hasFlag f PTE_U = true) :
    (A.grow n (k - n) f).Loading k := by
  refine ⟨h.spans.grow hk, fun v pg hv => ?_⟩
  unfold AddrSpace.grow at hv
  split_ifs at hv with hin
  · cases hv
    exact hf
  · exact h.user v pg hv

theorem Loading.write {pg : UPage} (h : A.Loading n) (hv : A v = some pg) (P : Page) :
    Loading (update A v (some ⟨pg.flags, P⟩)) n := by
  refine ⟨fun u => ?_, fun u pg' hu => ?_⟩
  · by_cases huv : u = v
    · rw [huv, update_self, ← h.spans v, hv]
      rfl
    · rw [update_of_ne huv, h.spans u]
  · rw [update_apply] at hu
    split_ifs at hu with huv
    · cases hu
      exact h.user v pg hv
    · exact h.user u pg' hu

theorem Spans.store (h : A.Spans n) (va : ℕ) (b : UInt8) : (A.store va b).Spans n := by
  intro u
  unfold AddrSpace.store
  by_cases hu : u = va / PGSIZE
  · rw [hu, update_self, Option.isSome_map, h]
  · rw [update_of_ne hu, h u]

theorem Spans.copyout (h : A.Spans n) (va : ℕ) (bs : List UInt8) : (A.copyout va bs).1.Spans n := by
  induction bs generalizing A va with
  | nil => exact h
  | cons b bs ih =>
    unfold AddrSpace.copyout
    split_ifs with hw
    · exact ih (h.store va b) (va + 1)
    · exact h

end AddrSpace

/-! ## The code refines it -/

theorem leNum_lt (bs : List UInt8) : leNum bs < 256 ^ bs.length := by
  induction bs with
  | nil => exact one_pos
  | cons b bs =>
    have hb := b.toNat_lt
    show b.toNat + 256 * leNum bs < 256 ^ (bs.length + 1)
    rw [pow_succ]
    omega

theorem field_lt (bs : List UInt8) (off : ℕ) : field bs off 8 < 2 ^ 64 :=
  lt_of_lt_of_le (leNum_lt _)
    (Nat.pow_le_pow_right (by decide) (List.length_take_le 8 _) : _ ≤ 256 ^ 8)

namespace Phys

open AddrSpace (pageFlags)

variable {m m' : Phys} {pt n oldsz xperm N sz tr tf : ℕ} {A : AddrSpace} {T : ℕ → ℕ} {F : Set ℕ}
  {data : List UInt8}

theorem isLeaf_flags2perm (flags : ℕ) : IsLeaf (pageFlags (flags2perm flags)) ∧
      hasFlag (pageFlags (flags2perm flags)) PTE_U = true := by
  unfold flags2perm
  cases hasFlag flags 1 <;> cases hasFlag flags 2 <;> decide

/-- **`uvmalloc` with enough memory is `uvmalloc` on address spaces**, and
without it changes nothing. -/
theorem Owns.uvmalloc_refines (h : Owns m pt A T F) (newsz : ℕ) (hn : A.Spans (npages oldsz))
    (hf : IsLeaf (pageFlags xperm)) :
    ∃ m' r, m.uvmalloc pt oldsz newsz xperm = .ok (m', r) ∧ Within m m' F ∧
      (r = 0 → Owns m' pt A T F) ∧ (r ≠ 0 → Owns m' pt (A.uvmalloc oldsz newsz xperm).1 T F ∧
        r = (A.uvmalloc oldsz newsz xperm).2) := by
  unfold AddrSpace.uvmalloc
  by_cases hlt : newsz < oldsz
  · refine ⟨m, oldsz, by rw [Phys.uvmalloc, if_pos hlt], Within.refl, fun _ => h, fun _ => ?_⟩
    rw [if_pos hlt]
    exact ⟨h, rfl⟩
  · obtain ⟨m', ok, hm', hw', -, hyes, hno⟩ := h.uvmalloc _ _ _ hn (not_lt.mp hlt) hf
    rw [if_neg hlt]
    cases ok with
    | true =>
      refine ⟨m', newsz, hm', hw', fun hz => ?_, fun _ => ⟨hyes rfl, rfl⟩⟩
      -- nothing was asked for
      have hgrow := hyes rfl
      rwa [hz, npages_zero, Nat.zero_sub, AddrSpace.grow_zero] at hgrow
    | false => exact ⟨m', 0, hm', hw', fun _ => hno rfl, absurd rfl⟩

/-- **Loading the pages of a segment.** -/
theorem Owns.loadsegLoop {va j : ℕ} (h : Owns m pt A T F) (data : List UInt8) (offset sz : ℕ)
    (hl : A.Loading N) (hin : va / PGSIZE + j + n ≤ N) :
    ∃ m' ok A', loadsegLoop data pt va offset sz m (j * PGSIZE) n = .ok (m', ok) ∧
      Within m m' F ∧ Owns m' pt A' T F ∧ A'.Loading N ∧
      (ok = true → AddrSpace.loadsegLoop data va offset sz A (j * PGSIZE) n = some A') := by
  induction n generalizing m A j with
  | zero => exact ⟨m, true, A, rfl, Within.refl, h, hl, fun _ => rfl⟩
  | succ n ih =>
    have hdiv : (va + j * PGSIZE) / PGSIZE = va / PGSIZE + j :=
      Nat.add_mul_div_right _ _ (by decide)
    obtain ⟨pg, hpg⟩ := Option.isSome_iff_exists.mp
      ((hl.spans ((va + j * PGSIZE) / PGSIZE)).mpr (by rw [hdiv]; omega))
    generalize hbs : readi data ((offset + j * PGSIZE) % 2 ^ 32) (chunk sz (j * PGSIZE)) = bs
    have ho := h.writeUser hpg (Page.write pg.bytes 0 bs)
    have hw : Within m (m.write (m.frame pt ((va + j * PGSIZE) / PGSIZE)) 0 bs) F :=
      within_setPage (h.sub (.inr ⟨_, by rw [hpg]; rfl, rfl⟩)) _
    have hwrite : m.setPage (m.frame pt ((va + j * PGSIZE) / PGSIZE)) (Page.write pg.bytes 0 bs) =
        m.write (m.frame pt ((va + j * PGSIZE) / PGSIZE)) 0 bs := by
      rw [Phys.write, (h.user _ pg hpg).2.2.2]
    rw [hwrite] at ho
    have hl' := hl.write hpg (Page.write pg.bytes 0 bs)
    unfold Phys.loadsegLoop AddrSpace.loadsegLoop
    rw [h.toSpace.walkaddr hpg (hl.user _ pg hpg), ok_bind, hpg]
    simp only [hbs]
    by_cases hlen : bs.length ≠ chunk sz (j * PGSIZE)
    · rw [if_pos hlen]
      exact ⟨_, false, _, rfl, hw, ho, hl', fun hc => by cases hc⟩
    · rw [if_neg hlen, if_neg hlen, ← Nat.succ_mul]
      obtain ⟨m', ok, A', hm', hw', ho', hl'', hok⟩ := ih (j := j + 1) ho hl' (by omega)
      exact ⟨m', ok, A', hm', hw.trans hw', ho', hl'', hok⟩

/-- The pages that hold a segment are among those mapped for it. -/
theorem segment_pages {ph : ProgHdr} (hv : ph.vaddr < 2 ^ 64) (hm : ph.memsz < 2 ^ 64)
    (hbad : ¬ ph.bad) (hsz : (ph.vaddr + ph.memsz) % 2 ^ 64 ≤ sz) :
    ph.vaddr / PGSIZE + npages (ph.filesz % 2 ^ 32) ≤ npages sz := by
  unfold ProgHdr.bad at hbad
  push Not at hbad
  have h3 := hbad.2.2
  show ph.vaddr / 4096 + (ph.filesz % 2 ^ 32 + 4096 - 1) / 4096 ≤ (sz + 4096 - 1) / 4096
  omega

theorem Loading.uvmalloc (h : A.Loading (npages oldsz)) (newsz : ℕ)
    (hf : hasFlag (pageFlags xperm) PTE_U = true) :
    (A.uvmalloc oldsz newsz xperm).1.Loading (npages (A.uvmalloc oldsz newsz xperm).2) ∧
      newsz ≤ (A.uvmalloc oldsz newsz xperm).2 := by
  unfold AddrSpace.uvmalloc
  split_ifs with hlt
  · exact ⟨h, hlt.le⟩
  · exact ⟨h.grow (npages_le (not_lt.mp hlt)) hf, le_rfl⟩

/-- **The loop over the program headers** never reaches a `panic`, whatever the
file contains. -/
theorem Owns.loadSegs (h : Owns m pt A T F) (data : List UInt8) (off sz : ℕ)
    (hl : A.Loading (npages sz)) :
    ∃ m' sz' ok A', loadSegs data pt n m off sz = .ok (m', sz', ok) ∧ Within m m' F ∧
      Owns m' pt A' T F ∧ A'.Loading (npages sz') ∧
      (ok = true → AddrSpace.loadSegs data n A off sz = some (A', sz')) := by
  induction n generalizing m A off sz with
  | zero => exact ⟨m, sz, true, A, rfl, Within.refl, h, hl, fun _ => rfl⟩
  | succ n ih =>
    unfold Phys.loadSegs AddrSpace.loadSegs
    dsimp only
    generalize hph : ProgHdr.ofBytes (readi data off proghdrSize) = ph
    by_cases hlen : (readi data off proghdrSize).length ≠ proghdrSize
    · rw [if_pos hlen]
      exact ⟨m, sz, false, A, rfl, Within.refl, h, hl, fun hc => by cases hc⟩
    rw [if_neg hlen, if_neg hlen]
    by_cases htype : ph.type ≠ ELF_PROG_LOAD
    · rw [if_pos htype, if_pos htype]
      exact ih h _ _ hl
    rw [if_neg htype, if_neg htype]
    by_cases hbad : ph.bad
    · rw [if_pos hbad]
      exact ⟨m, sz, false, A, rfl, Within.refl, h, hl, fun hc => by cases hc⟩
    rw [if_neg hbad, if_neg hbad]
    obtain ⟨hleaf, hU⟩ := isLeaf_flags2perm ph.flags
    obtain ⟨m₁, r, hm₁, hw₁, hzero, hpos⟩ := h.uvmalloc_refines
      ((ph.vaddr + ph.memsz) % 2 ^ 64) hl.spans hleaf
    obtain ⟨hl₁, hsz₁⟩ := Loading.uvmalloc hl ((ph.vaddr + ph.memsz) % 2 ^ 64) hU
    rw [hm₁, ok_bind]
    simp only
    by_cases hr : r = 0
    · rw [if_pos hr]
      exact ⟨m₁, sz, false, A, rfl, hw₁, hzero hr, hl, fun hc => by cases hc⟩
    · obtain ⟨ho₁, hr'⟩ := hpos hr
      rw [if_neg hr, if_neg (hr' ▸ hr), ← hr']
      rw [← hr'] at hl₁ hsz₁
      have hv : ph.vaddr < 2 ^ 64 := by rw [← hph]; exact field_lt _ _
      have hmem : ph.memsz < 2 ^ 64 := by rw [← hph]; exact field_lt _ _
      obtain ⟨m₂, ok, A₂, hm₂, hw₂, ho₂, hl₂, hok₂⟩ := ho₁.loadsegLoop (j := 0)
        (n := npages (ph.filesz % 2 ^ 32)) data (ph.off % 2 ^ 32)
        (ph.filesz % 2 ^ 32) hl₁ (segment_pages hv hmem hbad hsz₁)
      have hseg : m₁.loadseg data pt ph.vaddr (ph.off % 2 ^ 32) (ph.filesz % 2 ^ 32) =
          .ok (m₂, ok) := by
        rw [Phys.loadseg, ← zero_mul PGSIZE]
        exact hm₂
      rw [hseg, ok_bind]
      cases ok with
      | false => exact ⟨m₂, r, false, A₂, rfl, hw₁.trans hw₂, ho₂, hl₂, fun hc => by cases hc⟩
      | true =>
        obtain ⟨m', sz', ok', A', hm', hw', ho', hl', hok'⟩ :=
          ih ho₂ ((off + proghdrSize) % 2 ^ 32) _ hl₂
        have habs : (A.uvmalloc sz ((ph.vaddr + ph.memsz) % 2 ^ 64)
            (flags2perm ph.flags)).1.loadseg data ph.vaddr (ph.off % 2 ^ 32)
              (ph.filesz % 2 ^ 32) = some A₂ := by
          rw [AddrSpace.loadseg, ← zero_mul PGSIZE]
          exact hok₂ rfl
        refine ⟨m', sz', ok', A', hm', (hw₁.trans hw₂).trans hw', ho', hl', fun hok => ?_⟩
        rw [habs]
        exact hok' hok

/-- **Pushing the arguments.** -/
theorem Owns.pushArgs (h : Owns m pt A (procTop tr tf) F) (stackbase : ℕ) (argv : List (List UInt8))
    (sp : ℕ) (ustack : List ℕ) (hn : A.Spans N) :
    ∃ m' r A', pushArgs pt stackbase argv m sp ustack = .ok (m', r) ∧ Within m m' F ∧
      Owns m' pt A' (procTop tr tf) F ∧ A'.Spans N ∧ (∀ sp' us, r = some (sp', us) →
        AddrSpace.pushArgs stackbase argv A sp ustack = some (A', sp', us)) := by
  induction argv generalizing m A sp ustack with
  | nil =>
    refine ⟨m, some (sp, ustack), A, rfl, Within.refl, h, hn, fun sp' us hr => ?_⟩
    cases hr
    rfl
  | cons s argv ih =>
    unfold Phys.pushArgs AddrSpace.pushArgs
    by_cases hmax : MAXARG ≤ ustack.length
    · rw [if_pos hmax]
      exact ⟨m, none, A, rfl, Within.refl, h, hn, fun _ _ hc => by cases hc⟩
    rw [if_neg hmax, if_neg hmax]
    by_cases hbase : pushed sp (s.length + 1) < stackbase
    · rw [if_pos hbase]
      exact ⟨m, none, A, rfl, Within.refl, h, hn, fun _ _ hc => by cases hc⟩
    rw [if_neg hbase, if_neg hbase]
    obtain ⟨m₁, hm₁, ho₁, hw₁, -⟩ := h.copyout (pushed sp (s.length + 1)) (s ++ [0])
    have hn₁ := hn.copyout (pushed sp (s.length + 1)) (s ++ [0])
    rw [hm₁, ok_bind]
    simp only
    cases hok : (A.copyout (pushed sp (s.length + 1)) (s ++ [0])).2 with
    | false => exact ⟨m₁, none, _, rfl, hw₁, ho₁, hn₁, fun _ _ hc => by cases hc⟩
    | true =>
      obtain ⟨m', r, A', hm', hw', ho', hn', hr'⟩ := ih ho₁ (pushed sp (s.length + 1))
        (ustack ++ [pushed sp (s.length + 1)]) hn₁
      exact ⟨m', r, A', hm', hw₁.trans hw', ho', hn', hr'⟩

/-- Every argument that was pushed has its address in the array. -/
theorem length_pushArgs {stackbase sp sp' : ℕ} {argv : List (List UInt8)} {ustack us : List ℕ}
    {A' : AddrSpace} (h : AddrSpace.pushArgs stackbase argv A sp ustack = some (A', sp', us)) :
    us.length = ustack.length + argv.length := by
  induction argv generalizing A sp ustack with
  | nil =>
    obtain ⟨-, heq⟩ := Prod.mk.inj (Option.some.inj h)
    cases heq
    rfl
  | cons s argv ih =>
    unfold AddrSpace.pushArgs at h
    dsimp only at h
    split_ifs at h with hmax hbase hok
    rw [ih h, List.length_append, List.length_cons, List.length_cons, List.length_nil]
    omega

/-- **The user stack.** The array of addresses has no room for the null pointer
after `MAXARG` arguments. -/
theorem Owns.buildStack (h : Owns m pt A (procTop tr tf) F) (argv : List (List UInt8))
    (hn : A.Spans (npages sz)) : (m.buildStack pt sz argv = .error .ustack ∧ MAXARG ≤ argv.length) ∨
    ∃ m' sz' r A', m.buildStack pt sz argv = .ok (m', sz', r) ∧ Within m m' F ∧
      Owns m' pt A' (procTop tr tf) F ∧ A'.Spans (npages sz') ∧ (∀ sp argc, r = some (sp, argc) →
        A.buildStack (npages sz) argv = some (A', sz', sp, argc)) := by
  have hlt : npages sz < 2 ^ 26 := lt_trans (h.spans_lt hn) (by decide)
  have hround := h.PGROUNDUP_eq hn
  have hnew : (npages sz * PGSIZE + (USERSTACK + 1) * PGSIZE) % 2 ^ 64 =
      (npages sz + (USERSTACK + 1)) * PGSIZE := by
    show (npages sz * 4096 + 2 * 4096) % 2 ^ 64 = (npages sz + 2) * 4096
    omega
  have hne : (npages sz + (USERSTACK + 1)) * PGSIZE ≠ 0 := by
    show (npages sz + 2) * 4096 ≠ 0
    omega
  have hle : npages sz * PGSIZE ≤ (npages sz + (USERSTACK + 1)) * PGSIZE :=
    Nat.mul_le_mul_right _ (by omega)
  obtain ⟨m₁, ok, hm₁, hw₁, -, hyes, hno⟩ := h.uvmalloc (npages sz * PGSIZE)
    ((npages sz + (USERSTACK + 1)) * PGSIZE) PTE_W
    (by rw [npages_mul]; exact hn) hle (by decide)
  rw [npages_mul, npages_mul, Nat.add_sub_cancel_left] at hyes
  unfold Phys.buildStack AddrSpace.buildStack
  dsimp only
  rw [hround, hnew, hm₁, ok_bind]
  cases ok with
  | false =>
    refine .inr ⟨m₁, npages sz * PGSIZE, none, A, rfl, hw₁, hno rfl, ?_, fun _ _ hc => by cases hc⟩
    rw [npages_mul]
    exact hn
  | true =>
    have ho₁ : Owns m₁ pt (A.grow (npages sz) (USERSTACK + 1) (pageFlags PTE_W))
        (procTop tr tf) F := hyes rfl
    have hguard : A.grow (npages sz) (USERSTACK + 1) (pageFlags PTE_W) (npages sz) =
        some ⟨pageFlags PTE_W, fun _ => 0⟩ := by
      rw [AddrSpace.grow, if_pos (by omega)]
    obtain ⟨_, hm₂, ho₂, hw₂⟩ := ho₁.uvmclear hguard (by decide) (by decide)
    have hn₂ : ((A.grow (npages sz) (USERSTACK + 1) (pageFlags PTE_W)).clear (npages sz)).Spans
        (npages sz + (USERSTACK + 1)) := by
      have hg := hn.grow (k := npages sz + (USERSTACK + 1)) (f := pageFlags PTE_W) (by omega)
      rw [Nat.add_sub_cancel_left] at hg
      exact hg.clear _
    generalize (A.grow (npages sz) (USERSTACK + 1) (pageFlags PTE_W)).clear (npages sz) = A₂
      at ho₂ hn₂ ⊢
    have hsub : (npages sz + (USERSTACK + 1)) * PGSIZE - (USERSTACK + 1) * PGSIZE =
        npages sz * PGSIZE := by
      rw [Nat.add_mul, Nat.add_sub_cancel]
    obtain ⟨m₃, r, A₃, hm₃, hw₃, ho₃, hn₃, hr₃⟩ := ho₂.pushArgs
      ((npages sz + (USERSTACK + 1)) * PGSIZE - USERSTACK * PGSIZE) argv
      ((npages sz + (USERSTACK + 1)) * PGSIZE) [] hn₂
    have hspan : ∀ {B : AddrSpace}, B.Spans (npages sz + (USERSTACK + 1)) →
        B.Spans (npages ((npages sz + (USERSTACK + 1)) * PGSIZE)) := fun hB => by
      rw [npages_mul]
      exact hB
    simp only [if_true, if_neg hne, hsub, hm₂, ok_bind, hm₃]
    cases r with
    | none =>
      exact .inr ⟨m₃, _, none, A₃, rfl, (hw₁.trans hw₂).trans hw₃, ho₃, hspan hn₃,
        fun _ _ hc => by cases hc⟩
    | some q =>
      obtain ⟨sp, ustack⟩ := q
      rw [hr₃ sp ustack rfl]
      simp only
      by_cases hmax : MAXARG ≤ ustack.length
      · rw [if_pos hmax]
        rw [length_pushArgs (hr₃ sp ustack rfl), List.length_nil, zero_add] at hmax
        exact .inl ⟨rfl, hmax⟩
      rw [if_neg hmax, if_neg hmax]
      by_cases hbase : pushed sp ((ustack.length + 1) * 8) <
          (npages sz + (USERSTACK + 1)) * PGSIZE - USERSTACK * PGSIZE
      · rw [if_pos hbase]
        exact .inr ⟨m₃, _, none, A₃, rfl, (hw₁.trans hw₂).trans hw₃, ho₃, hspan hn₃,
          fun _ _ hc => by cases hc⟩
      · obtain ⟨m₄, hm₄, ho₄, hw₄, -⟩ := ho₃.copyout (pushed sp ((ustack.length + 1) * 8))
          ((ustack ++ [0]).flatMap wordBytes)
        have hn₄ := hn₃.copyout (pushed sp ((ustack.length + 1) * 8))
          ((ustack ++ [0]).flatMap wordBytes)
        rw [if_neg hbase, if_neg hbase, hm₄, ok_bind]
        refine .inr ⟨m₄, _, _, _, rfl, ((hw₁.trans hw₂).trans hw₃).trans hw₄, ho₄, hspan hn₄,
          fun sp' argc hr => ?_⟩
        cases hok : (A₃.copyout (pushed sp ((ustack.length + 1) * 8))
            ((ustack ++ [0]).flatMap wordBytes)).2 with
        | false =>
          rw [hok] at hr
          cases hr
        | true =>
          rw [hok] at hr
          cases hr
          rfl

end Phys

end Xv6
