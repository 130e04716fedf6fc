import OsProject.Loader

/-!
# The arguments of a program

`exec` puts the arguments of the new program on its stack: the strings, one below the
other, and below them the array of their addresses with a null pointer at its end. Every
one of these starts at a multiple of 16. Whether there is room is tested after each push,
on an unsigned stack pointer; since an argument is not longer than a page, and there is at
least a page below the stack, the pointer does not wrap around.

`ArgsAt` says what is on the stack then. `buildStack_argsAt` says that it is there if the
stack could be built, and that it could only be built if there was room: `stackUse` is what
the arguments need.
-/

namespace Xv6

open List Option

namespace AddrSpace

variable {A A' : AddrSpace} {a va n i j sp sp' stackbase top p argc sz : ℕ} {bs s : List UInt8}
  {argv : List (List UInt8)} {us us' ptrs : List ℕ}

/-! ## Reading and writing -/

/-- `copyout` writes nothing beyond its end. -/
theorem byte_copyout_of_ge (bs : List UInt8) (h : va + bs.length ≤ a) :
    (A.copyout va bs).1.byte a = A.byte a := by
  induction bs generalizing A va with
  | nil => rfl
  | cons b bs ih =>
    rw [length_cons] at h
    rw [copyout]
    split
    · rw [ih (by omega), byte_store_of_ne b (by omega)]
    · rfl

/-- It does not change what is mapped where. -/
theorem flags_copyout (bs : List UInt8) (v : ℕ) :
    ((A.copyout va bs).1 v).map UPage.flags = (A v).map UPage.flags := by
  induction bs generalizing A va with
  | nil => rfl
  | cons b bs ih =>
    rw [copyout]
    split
    · rw [ih, store]
      by_cases hv : v = va / PGSIZE
      · rw [hv, Function.update_self, Option.map_map]
        rfl
      · rw [Function.update_of_ne hv]
    · rfl

theorem load_congr (h : ∀ k < n, A'.byte (a + k) = A.byte (a + k)) : A'.load a n = A.load a n :=
  map_congr_left (fun k hk => h k (mem_range.mp hk))

/-- A part of what is there. -/
theorem load_part {l : List UInt8} (h : A.load a l.length = l.map some) (hij : i + j ≤ l.length) :
    A.load (a + i) j = ((l.drop i).take j).map some := by
  have hbyte : ∀ k < l.length, A.byte (a + k) = l[k]? := by
    intro k hk
    have hk' := congrArg (fun l => l[k]?) h
    simp only [load, getElem?_map, getElem?_range hk, map_some] at hk'
    rw [getElem?_eq_getElem hk] at hk' ⊢
    exact some.inj hk'
  refine ext_getElem? fun k => ?_
  by_cases hk : k < j
  · rw [load, getElem?_map, getElem?_range hk, map_some, getElem?_map,
      getElem?_take_of_lt hk, getElem?_drop, add_assoc, hbyte _ (by omega),
      getElem?_eq_getElem (by omega : i + k < l.length), map_some]
  · rw [getElem?_eq_none (by rw [load, length_map, length_range]; omega),
      getElem?_eq_none (by rw [length_map, length_take]; omega)]

/-- An array of words. -/
theorem part_flatMap_wordBytes (ws : List ℕ) {w : ℕ} (h : ws[i]? = some w) :
    (((ws.flatMap wordBytes).drop (8 * i)).take 8) = wordBytes w ∧
      8 * i + 8 ≤ (ws.flatMap wordBytes).length := by
  induction ws generalizing i with
  | nil => cases h
  | cons v ws ih =>
    have hlen : (wordBytes v).length = 8 := by
      rw [wordBytes, length_map, length_range]
    rw [flatMap_cons, length_append, hlen]
    cases i with
    | zero =>
      cases h
      refine ⟨?_, by omega⟩
      rw [mul_zero, drop_zero, take_left' hlen]
    | succ =>
      obtain ⟨hpart, _⟩ := ih h
      refine ⟨?_, by omega⟩
      rw [Nat.mul_succ, add_comm, ← drop_drop, drop_left' hlen]
      exact hpart

theorem length_flatMap_wordBytes (ws : List ℕ) : (ws.flatMap wordBytes).length = 8 * ws.length := by
  induction ws with
  | nil => rfl
  | cons v ws ih =>
    rw [flatMap_cons, length_append, ih, wordBytes, length_map, length_range, length_cons]
    omega

/-! ## Pushing -/

/-- The next multiple of 16. -/
def aligned (n : ℕ) : ℕ := (n + 15) / 16 * 16

/-- What the arguments need of the stack. -/
def stackUse (argv : List (List UInt8)) : ℕ :=
  (argv.map (fun s => aligned (s.length + 1))).sum + aligned ((argv.length + 1) * 8)

/-- A push that does not wrap around. -/
theorem pushed_eq (hsp : sp % 16 = 0) (hlt : sp < 2 ^ 64) (hn : n ≤ sp) :
    aligned n ≤ sp ∧ pushed sp n = sp - aligned n := by
  unfold pushed sub64 aligned
  omega

/-- The strings are at these addresses, one below the other. -/
def OnStack (A : AddrSpace) : ℕ → List ℕ → List (List UInt8) → Prop
  | _, [], [] => True
  | top, p :: ps, s :: argv =>
    p + (s.length + 1) ≤ top ∧ A.load p (s.length + 1) = (s ++ [0]).map some ∧
      OnStack A p ps argv
  | _, _, _ => False

/-- **What the loop over the arguments does.** -/
theorem pushArgs_onStack (hsp : sp % 16 = 0) (hlt : sp < 2 ^ 64) (hbase : stackbase ≤ sp)
    (hpage : PGSIZE ≤ stackbase) (hargv : ∀ s ∈ argv, s.length < PGSIZE)
    (h : pushArgs stackbase argv A sp us = some (A', sp', us')) :
    ∃ ptrs, us' = us ++ ptrs ∧ OnStack A' sp ptrs argv ∧
      (∀ a, sp ≤ a → A'.byte a = A.byte a) ∧ (∀ v, (A' v).map UPage.flags = (A v).map UPage.flags) ∧
      sp' + (argv.map (fun s => aligned (s.length + 1))).sum = sp ∧ stackbase ≤ sp' ∧
      sp' % 16 = 0 ∧ ∀ p ∈ ptrs, sp' ≤ p := by
  induction argv generalizing A sp us with
  | nil =>
    cases h
    exact ⟨[], (append_nil _).symm, trivial, fun _ _ => rfl, fun _ => rfl, rfl, hbase, hsp, nofun⟩
  | cons s argv ih =>
    rw [pushArgs] at h
    dsimp only at h
    split_ifs at h with hmax hlow hok
    have hs := hargv s mem_cons_self
    obtain ⟨_, hp⟩ := pushed_eq (n := s.length + 1) hsp hlt (by omega)
    obtain ⟨p, hpdef⟩ : ∃ p, pushed sp (s.length + 1) = p := ⟨_, rfl⟩
    rw [hpdef] at hp h hok hlow
    have hal : aligned (s.length + 1) % 16 = 0 := Nat.mul_mod_left _ _
    have hge : s.length + 1 ≤ aligned (s.length + 1) := by
      unfold aligned
      omega
    obtain ⟨ptrs, hus, hon, hbyte, hflags, _, hbase', hsp', hptrs⟩ :=
      ih (by omega) (by omega) (not_lt.mp hlow) (fun t ht => hargv t (mem_cons_of_mem _ ht)) h
    have hlen : (s ++ [0]).length = s.length + 1 := length_append
    refine ⟨p :: ptrs, by rw [hus, append_assoc]; rfl, ⟨by omega, ?_, hon⟩, fun a ha => ?_,
      fun v => ?_, ?_, hbase', hsp', fun q hq => ?_⟩
    · rw [load_congr (fun k _ => hbyte (p + k) (Nat.le_add_right _ _)), ← hlen]
      exact load_copyout hok
    · rw [hbyte a (by omega), byte_copyout_of_ge _ (by omega)]
    · rw [hflags, flags_copyout]
    · rw [map_cons, sum_cons]
      omega
    · rcases mem_cons.mp hq with rfl | hq
      · omega
      · exact hptrs q hq

/-! ## The stack -/

/-- **The arguments are on the stack**, in the page below `sz`: the array of their addresses
starts at `sp` and ends with a null pointer, the strings are above it, each with a zero byte
behind it, and no two of these overlap. The page below the stack is out of the program's
reach. -/
structure ArgsAt (A : AddrSpace) (sz sp : ℕ) (argv : List (List UInt8)) (ptrs : List ℕ) : Prop where
  length : ptrs.length = argv.length
  pointer : ∀ (i : ℕ) p, ptrs[i]? = some p → A.load (sp + 8 * i) 8 = (wordBytes p).map some
  null : A.load (sp + 8 * argv.length) 8 = (wordBytes 0).map some
  string : ∀ (i : ℕ) p s, ptrs[i]? = some p → argv[i]? = some s →
    A.load p (s.length + 1) = (s ++ [0]).map some
  aligned : sp % 16 = 0
  base : sz - USERSTACK * PGSIZE ≤ sp
  room : sp + 8 * (argv.length + 1) ≤ sz
  above : ∀ p ∈ ptrs, sp + 8 * (argv.length + 1) ≤ p
  top : ∀ (i : ℕ) p s, ptrs[i]? = some p → argv[i]? = some s → p + (s.length + 1) ≤ sz
  apart : ∀ (i j : ℕ) p q s, i < j → ptrs[i]? = some p → ptrs[j]? = some q → argv[j]? = some s →
    q + (s.length + 1) ≤ p
  guard : ∃ pg, A (sz / PGSIZE - USERSTACK - 1) = some pg ∧ hasFlag pg.flags PTE_U = false

theorem OnStack.length (h : OnStack A top ptrs argv) : ptrs.length = argv.length := by
  induction ptrs generalizing top argv with
  | nil =>
    cases argv with
    | nil => rfl
    | cons => exact h.elim
  | cons p ps ih =>
    cases argv with
    | nil => exact h.elim
    | cons => rw [length_cons, length_cons, ih h.2.2]

/-- Each of the strings, and where it ends. -/
theorem OnStack.get (h : OnStack A top ptrs argv) (hp : ptrs[i]? = some p)
    (hs : argv[i]? = some s) :
    p + (s.length + 1) ≤ top ∧ A.load p (s.length + 1) = (s ++ [0]).map some := by
  induction ptrs generalizing top argv i with
  | nil => cases hp
  | cons q ps ih =>
    cases argv with
    | nil => cases hs
    | cons =>
      cases i with
      | zero =>
        cases hp
        cases hs
        exact ⟨h.1, h.2.1⟩
      | succ =>
        obtain ⟨_, hload⟩ := ih h.2.2 hp hs
        exact ⟨by have := h.1; omega, hload⟩

/-- A later string is below an earlier one. -/
theorem OnStack.apart {q : ℕ} (h : OnStack A top ptrs argv) (hij : i < j) (hp : ptrs[i]? = some p)
    (hq : ptrs[j]? = some q) (hs : argv[j]? = some s) : q + (s.length + 1) ≤ p := by
  induction ptrs generalizing top argv i j with
  | nil => cases hp
  | cons r ps ih =>
    cases argv with
    | nil => cases hs
    | cons =>
      cases j with
      | zero => exact absurd hij (Nat.not_lt_zero _)
      | succ =>
        cases i with
        | zero =>
          cases hp
          exact (h.2.2.get hq hs).1
        | succ => exact ih h.2.2 (Nat.lt_of_succ_lt_succ hij) hp hq hs

theorem sz_of_buildStack (h : buildStack A n argv = some (A', sz, sp, argc)) :
    sz = (n + (USERSTACK + 1)) * PGSIZE := by
  rw [buildStack] at h
  dsimp only at h
  split at h
  · cases h
  · split_ifs at h
    cases h
    rfl

/-- **What `exec` does after the image is loaded.** If the stack can be built, then there was
room for the arguments, and they are on it. -/
theorem buildStack_argsAt (hn : (n + (USERSTACK + 1)) * PGSIZE < 2 ^ 64)
    (hargv : ∀ s ∈ argv, s.length < PGSIZE) (h : buildStack A n argv = some (A', sz, sp, argc)) :
    argc = argv.length ∧ argv.length < MAXARG ∧ stackUse argv ≤ USERSTACK * PGSIZE ∧
      ∃ ptrs, ArgsAt A' sz sp argv ptrs := by
  obtain ⟨z, hz⟩ : ∃ z, (n + (USERSTACK + 1)) * PGSIZE = z := ⟨_, rfl⟩
  obtain ⟨b, hb⟩ : ∃ b, z - USERSTACK * PGSIZE = b := ⟨_, rfl⟩
  have hz' : z = (n + 2) * 4096 := hz.symm
  have hb' : b = (n + 1) * 4096 := by
    have hb' : z - 1 * 4096 = b := hb
    omega
  rw [buildStack] at h
  rw [hz, hb] at h
  rw [hz] at hn
  cases hpush : pushArgs b argv ((A.grow n (USERSTACK + 1) (pageFlags PTE_W)).clear n) z [] with
  | none =>
    rw [hpush] at h
    cases h
  | some r =>
    obtain ⟨A₁, top, ptrs⟩ := r
    rw [hpush] at h
    dsimp only at h
    split_ifs at h with hmax hlow hok
    obtain ⟨ps, hus, hon, _, hflags, _, _, htop, hptrs⟩ :=
      pushArgs_onStack (by omega) hn (by omega) (by show 4096 ≤ b; omega) hargv hpush
    obtain rfl : ptrs = ps := hus
    have hlen := hon.length
    have hlt : ptrs.length < 32 := not_le.mp hmax
    obtain ⟨_, hsp⟩ := pushed_eq (n := (ptrs.length + 1) * 8) htop (by omega) (by omega)
    obtain ⟨sp₀, hsp₀⟩ : ∃ sp₀, pushed top ((ptrs.length + 1) * 8) = sp₀ := ⟨_, rfl⟩
    rw [hsp₀] at hsp h hok hlow
    cases h
    have hbytes : ((ptrs ++ [0]).flatMap wordBytes).length = 8 * (ptrs.length + 1) := by
      rw [length_flatMap_wordBytes, length_append, length_singleton]
    have hal : aligned ((ptrs.length + 1) * 8) % 16 = 0 := Nat.mul_mod_left _ _
    have hge : (ptrs.length + 1) * 8 ≤ aligned ((ptrs.length + 1) * 8) := by
      unfold aligned
      omega
    have harray := load_copyout hok
    -- the array is below the strings
    have hkeep : ∀ a, top ≤ a → (A₁.copyout sp ((ptrs ++ [0]).flatMap wordBytes)).1.byte a =
        A₁.byte a := fun a ha => byte_copyout_of_ge _ (by omega)
    have hword : ∀ (i w : ℕ), (ptrs ++ [0])[i]? = some w →
        (A₁.copyout sp ((ptrs ++ [0]).flatMap wordBytes)).1.load (sp + 8 * i) 8 =
          (wordBytes w).map some := by
      intro i w hw
      obtain ⟨hpart, hfit⟩ := part_flatMap_wordBytes _ hw
      rw [load_part harray hfit, hpart]
    refine ⟨hlen, by omega, ?_, ptrs, hlen, fun i p hp => ?_, ?_, fun i p s hp hs => ?_, ?_,
      by omega, by omega, fun p hp => ?_, fun i p s hp hs => (hon.get hp hs).1,
      fun i j p q s hij hp hq hs => hon.apart hij hp hq hs, ?_⟩
    · unfold stackUse
      rw [← hlen]
      omega
    · exact hword i p (by rw [List.getElem?_append_left (List.getElem?_eq_some_iff.mp hp).1, hp])
    · refine hword _ 0 ?_
      rw [← hlen, getElem?_concat_length]
    · rw [load_congr (fun k _ => hkeep _ ?_), (hon.get hp hs).2]
      exact le_trans (hptrs p (mem_of_getElem? hp)) (Nat.le_add_right _ _)
    · omega
    · have := hptrs p hp
      omega
    · have hguard : ((A₁.copyout sp ((ptrs ++ [0]).flatMap wordBytes)).1 n).map UPage.flags = _ :=
        flags_copyout _ n
      rw [hflags, clear, Function.update_self, grow, if_pos (by omega)] at hguard
      obtain ⟨pg, hpg, hf⟩ := map_eq_some_iff.mp hguard
      refine ⟨pg, ?_, ?_⟩
      · have hn : sz / 4096 - 1 - 1 = n := by omega
        rw [hn]
        exact hpg
      · rw [hf]
        decide

/-- The same for the whole of a file. -/
theorem loadFile_argsAt {data : List UInt8} {img : Image} (hsz : img.sz < 2 ^ 64)
    (hargv : ∀ s ∈ argv, s.length < PGSIZE) (h : loadFile data argv = some img) :
    img.argc = argv.length ∧ argv.length < MAXARG ∧ stackUse argv ≤ USERSTACK * PGSIZE ∧
      ∃ ptrs, ArgsAt img.pages img.sz img.sp argv ptrs := by
  unfold loadFile at h
  split at h
  · cases h
  · split at h
    · cases h
    · split at h
      · cases h
      · next A sz sp argc hstack =>
        cases h
        exact buildStack_argsAt (sz_of_buildStack hstack ▸ hsz) hargv hstack

end AddrSpace

end Xv6
