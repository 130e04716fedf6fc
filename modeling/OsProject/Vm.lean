import OsProject.PhysMem
import Mathlib.Data.List.FinRange

/-!
# Virtual memory

The functions of `vm.c` that build, change and take down the page table of a
process, and `proc_pagetable` and `proc_freepagetable` of `proc.c`.

A page table is three levels of tables in physical memory, named by the
address of the top one. A pointer to an entry is the address of its table with
the index in it. The loops of the source count virtual addresses up in steps
of a page; here they count down the number of pages that are left.
-/

namespace Xv6

/-- The highest page of every address space (`memlayout.h`). -/
abbrev TRAMPOLINE : ℕ := MAXVA - PGSIZE

/-- The page below it (`memlayout.h`). -/
abbrev TRAPFRAME : ℕ := TRAMPOLINE - PGSIZE

namespace Phys

/-! ## Walking -/

/-- One round of the loop of `walk`: the table that entry `i` links to, which
is allocated if it does not exist and `alloc` is set. -/
def walkLevel (m : Phys) (pagetable : ℕ) (i : Fin 512) (alloc : Bool) : Phys × Option ℕ :=
  let pte := m.entry pagetable i
  if hasFlag pte PTE_V then (m, some (PTE2PA pte))
  else if alloc then
    match m.kalloc with
    | (m, none) => (m, none)
    | (m, some mem) =>
      ((m.memset mem 0).setEntry pagetable i (PA2PTE mem ||| PTE_V), some mem)
  else (m, none)

/-- The loop of `walk`, over the indices of the levels that are left. -/
def walkLevels (alloc : Bool) : Phys → ℕ → List (Fin 512) → Phys × Option ℕ
  | m, pagetable, [] => (m, some pagetable)
  | m, pagetable, i :: is =>
    match m.walkLevel pagetable i alloc with
    | (m, none) => (m, none)
    | (m, some pagetable) => walkLevels alloc m pagetable is

/-- `walk`: where the entry for `va` is. -/
def walk (m : Phys) (pagetable va : ℕ) (alloc : Bool) :
    Except Fault (Phys × Option (ℕ × Fin 512)) :=
  if MAXVA ≤ va then .error .walk
  else
    let r := walkLevels alloc m pagetable [PX 2 va, PX 1 va]
    .ok (r.1, r.2.map (fun pt => (pt, PX 0 va)))

/-- `walkaddr`: the page that holds the user address `va`. -/
def walkaddr (m : Phys) (pagetable va : ℕ) : Except Fault (Option ℕ) :=
  if MAXVA ≤ va then .ok none
  else do
    let (m, r) ← m.walk pagetable va false
    match r with
    | none => .ok none
    | some (pt, i) =>
      let pte := m.entry pt i
      if hasFlag pte PTE_V = false then .ok none
      else if hasFlag pte PTE_U = false then .ok none
      else .ok (some (PTE2PA pte))

/-! ## Mapping and unmapping -/

/-- The loop of `mappages`, with `n` pages left. -/
def mapLoop (pagetable perm : ℕ) : Phys → ℕ → ℕ → ℕ → Except Fault (Phys × Bool)
  | m, _, _, 0 => .ok (m, true)
  | m, a, pa, n + 1 => do
    let (m, r) ← m.walk pagetable a true
    match r with
    | none => .ok (m, false)
    | some (pt, i) =>
      if hasFlag (m.entry pt i) PTE_V then .error .mapRemap
      else
        mapLoop pagetable perm (m.setEntry pt i (PA2PTE pa ||| perm ||| PTE_V))
          (a + PGSIZE) (pa + PGSIZE) n

/-- `mappages`. The result is whether there was memory for the tables. -/
def mappages (m : Phys) (pagetable va size pa perm : ℕ) : Except Fault (Phys × Bool) :=
  if va % PGSIZE ≠ 0 then .error .mapNotAligned
  else if size % PGSIZE ≠ 0 then .error .mapSizeNotAligned
  else if size = 0 then .error .mapSize
  else mapLoop pagetable perm m va pa (size / PGSIZE)

/-- The loop of `uvmunmap`, with `n` pages left. -/
def unmapLoop (pagetable : ℕ) (doFree : Bool) : Phys → ℕ → ℕ → Except Fault Phys
  | m, _, 0 => .ok m
  | m, a, n + 1 => do
    let (m, r) ← m.walk pagetable a false
    match r with
    | none => .error .unmapWalk
    | some (pt, i) =>
      let pte := m.entry pt i
      if hasFlag pte PTE_V = false then .error .unmapNotMapped
      else if PTE_FLAGS pte = PTE_V then .error .unmapNotLeaf
      else do
        let m ← if doFree then m.kfree (PTE2PA pte) else .ok m
        unmapLoop pagetable doFree (m.setEntry pt i 0) (a + PGSIZE) n

/-- `uvmunmap`. -/
def uvmunmap (m : Phys) (pagetable va npages : ℕ) (doFree : Bool) : Except Fault Phys :=
  if va % PGSIZE ≠ 0 then .error .unmapNotAligned
  else unmapLoop pagetable doFree m va npages

/-- `uvmcreate`. -/
def uvmcreate (m : Phys) : Phys × Option ℕ :=
  match m.kalloc with
  | (m, none) => (m, none)
  | (m, some pagetable) => (m.memset pagetable 0, some pagetable)

/-- `uvmdealloc`. -/
def uvmdealloc (m : Phys) (pagetable oldsz newsz : ℕ) : Except Fault (Phys × ℕ) :=
  if oldsz ≤ newsz then .ok (m, oldsz)
  else if PGROUNDUP newsz < PGROUNDUP oldsz then do
    let npages := (PGROUNDUP oldsz - PGROUNDUP newsz) / PGSIZE
    let m ← m.uvmunmap pagetable (PGROUNDUP newsz) npages true
    .ok (m, newsz)
  else .ok (m, newsz)

/-- The loop of `uvmalloc`, with `n` pages left. When memory runs out, the
pages from `oldsz` on are given back. -/
def allocLoop (pagetable oldsz xperm : ℕ) : Phys → ℕ → ℕ → Except Fault (Phys × Bool)
  | m, _, 0 => .ok (m, true)
  | m, a, n + 1 =>
    match m.kalloc with
    | (m, none) => do
      let (m, _) ← m.uvmdealloc pagetable a oldsz
      .ok (m, false)
    | (m, some mem) => do
      let (m, ok) ← (m.memset mem 0).mappages pagetable a PGSIZE mem (PTE_R ||| PTE_U ||| xperm)
      if ok then allocLoop pagetable oldsz xperm m (a + PGSIZE) n
      else do
        let m ← m.kfree mem
        let (m, _) ← m.uvmdealloc pagetable a oldsz
        .ok (m, false)

/-- `uvmalloc`: the new size, or 0. -/
def uvmalloc (m : Phys) (pagetable oldsz newsz xperm : ℕ) : Except Fault (Phys × ℕ) :=
  if newsz < oldsz then .ok (m, oldsz)
  else do
    let oldsz := PGROUNDUP oldsz
    let (m, ok) ← allocLoop pagetable oldsz xperm m oldsz ((newsz - oldsz + PGSIZE - 1) / PGSIZE)
    .ok (m, if ok then newsz else 0)

/-- The body of the loop of `freewalk`, where `free` is the call for the table
below. -/
def freeEntry (free : Phys → ℕ → Except Fault Phys) (pagetable : ℕ) (m : Phys) (i : Fin 512) :
    Except Fault Phys :=
  let pte := m.entry pagetable i
  if hasFlag pte PTE_V && !(hasFlag pte PTE_R || hasFlag pte PTE_W || hasFlag pte PTE_X) then do
    let m ← free m (PTE2PA pte)
    .ok (m.setEntry pagetable i 0)
  else if hasFlag pte PTE_V then .error .freewalkLeaf
  else .ok m

/-- `freewalk`. The source recurses along the links; the first argument is the
number of levels there are. -/
def freewalk : ℕ → Phys → ℕ → Except Fault Phys
  | 0, _, _ => .error .depth
  | level + 1, m, pagetable => do
    let m ← (List.finRange 512).foldlM (freeEntry (freewalk level) pagetable) m
    m.kfree pagetable

/-- `uvmfree`. -/
def uvmfree (m : Phys) (pagetable sz : ℕ) : Except Fault Phys := do
  let m ← if 0 < sz then m.uvmunmap pagetable 0 (PGROUNDUP sz / PGSIZE) true else .ok m
  freewalk 3 m pagetable

/-- The loop of `uvmcopy`, with `n` pages left. When memory runs out, the pages
copied so far are given back. -/
def copyLoop (old new : ℕ) : Phys → ℕ → ℕ → Except Fault (Phys × Bool)
  | m, _, 0 => .ok (m, true)
  | m, i, n + 1 => do
    let (m, r) ← m.walk old i false
    match r with
    | none => .error .copyNoPte
    | some (pt, k) =>
      let pte := m.entry pt k
      if hasFlag pte PTE_V = false then .error .copyNotPresent
      else
        match m.kalloc with
        | (m, none) => do
          let m ← m.uvmunmap new 0 (i / PGSIZE) true
          .ok (m, false)
        | (m, some mem) => do
          let (m, ok) ← (m.setPage mem (m.page (PTE2PA pte))).mappages new i PGSIZE mem
            (PTE_FLAGS pte)
          if ok then copyLoop old new m (i + PGSIZE) n
          else do
            let m ← m.kfree mem
            let m ← m.uvmunmap new 0 (i / PGSIZE) true
            .ok (m, false)

/-- `uvmcopy`. -/
def uvmcopy (m : Phys) (old new sz : ℕ) : Except Fault (Phys × Bool) :=
  copyLoop old new m 0 ((sz + PGSIZE - 1) / PGSIZE)

/-- `uvmclear`: the page is no longer for user mode. -/
def uvmclear (m : Phys) (pagetable va : ℕ) : Except Fault Phys := do
  let (m, r) ← m.walk pagetable va false
  match r with
  | none => .error .clear
  | some (pt, i) =>
    let pte := m.entry pt i
    .ok (m.setEntry pt i (if hasFlag pte PTE_U then pte - PTE_U else pte))

/-- The loop of `copyout`. Every round copies at least one byte, so there are
at most as many rounds as bytes. -/
def copyoutLoop (pagetable : ℕ) : ℕ → Phys → ℕ → List UInt8 → Except Fault (Phys × Bool)
  | 0, m, _, _ => .ok (m, true)
  | rounds + 1, m, dstva, src =>
    if src = [] then .ok (m, true)
    else
      let va0 := PGROUNDDOWN dstva
      if MAXVA ≤ va0 then .ok (m, false)
      else do
        let (m, r) ← m.walk pagetable va0 false
        match r with
        | none => .ok (m, false)
        | some (pt, i) =>
          let pte := m.entry pt i
          if hasFlag pte PTE_V = false ∨ hasFlag pte PTE_U = false ∨ hasFlag pte PTE_W = false
          then .ok (m, false)
          else
            let n := min (PGSIZE - (dstva - va0)) src.length
            copyoutLoop pagetable rounds (m.write (PTE2PA pte) (dstva - va0) (src.take n))
              ((va0 + PGSIZE) % 2 ^ 64) (src.drop n)

/-- `copyout`. -/
def copyout (m : Phys) (pagetable dstva : ℕ) (src : List UInt8) : Except Fault (Phys × Bool) :=
  copyoutLoop pagetable src.length m dstva src

/-! ## The page table of a process -/

/-- `proc_pagetable`, for a process whose trapframe is the page `trapframe`. -/
def procPagetable (m : Phys) (trapframe : ℕ) : Except Fault (Phys × Option ℕ) :=
  match m.uvmcreate with
  | (m, none) => .ok (m, none)
  | (m, some pagetable) => do
    let (m, ok) ← m.mappages pagetable TRAMPOLINE PGSIZE m.trampoline (PTE_R ||| PTE_X)
    if ok then do
      let (m, ok) ← m.mappages pagetable TRAPFRAME PGSIZE trapframe (PTE_R ||| PTE_W)
      if ok then .ok (m, some pagetable)
      else do
        let m ← m.uvmunmap pagetable TRAMPOLINE 1 false
        let m ← m.uvmfree pagetable 0
        .ok (m, none)
    else do
      let m ← m.uvmfree pagetable 0
      .ok (m, none)

/-- `proc_freepagetable`. -/
def procFreepagetable (m : Phys) (pagetable sz : ℕ) : Except Fault Phys := do
  let m ← m.uvmunmap pagetable TRAMPOLINE 1 false
  let m ← m.uvmunmap pagetable TRAPFRAME 1 false
  m.uvmfree pagetable sz

end Phys

end Xv6
