import OsProject.SysExec

/-!
# `forex`

`forex` takes the name of a program. Without a name it is `fork`; with a name it is
`spawn` of the program in the root directory. The name is read into an array of 128
bytes and copied from there into another one, after a slash if it does not start with
one, until its null byte.

Both arrays have the same size, but the second may have to hold one byte more. A name
of 127 bytes that does not start with a slash is written beyond the end of it
(`writes_in_bounds_iff`). And a name that cannot be read, because it is too long or
because the pointer is bad, is treated as no name: the process is duplicated
(`forks_only_without_name_iff`). Both are about `Forex.target`, which is the function up to
the call of `fork` or `spawn`; `sysForex_cases` is what this means for the system call.
-/

namespace Xv6

open Function (update update_of_ne update_self)

open Phys List Option

namespace Forex

/-! ## The code -/

/-- The size of the arrays `filename` and `full_path`. -/
abbrev PATHSIZE : ℕ := 128

/-- What `sys_forex` calls. -/
inductive Target
  | fork
  | spawn (path : List UInt8)
  deriving DecidableEq

/-- `full_path[i] = b`. -/
def put (full_path : Buffer) (i : ℕ) (b : UInt8) : Except Fault Buffer :=
  if i < PATHSIZE then .ok (update full_path i b) else .error .fullPath

/-- The loop over the characters of `filename`, and the null byte after them. -/
def putAll : List UInt8 → Buffer → ℕ → Except Fault Buffer
  | [], full_path, i => put full_path i 0
  | b :: bs, full_path, i => do
    let full_path ← put full_path i b
    putAll bs full_path (i + 1)

/-- `sys_forex`, for a process with this page table and this argument, up to the call of
`fork` or `spawn`. What is in the two arrays at first is what was on the stack. -/
def target (m : Phys) (pagetable addr : ℕ) (filename full_path : Buffer) :
    Except Fault Target := do
  let (filename, r) ← m.fetchstr pagetable filename addr PATHSIZE
  let filename := if r < 0 then update filename 0 0 else filename
  if filename 0 = 0 then .ok .fork
  else do
    let full_path ←
      if filename 0 ≠ slash then do
        let full_path ← put full_path 0 slash
        putAll (Buffer.cstr filename PATHSIZE) full_path 1
      else putAll (Buffer.cstr filename PATHSIZE) full_path 0
    .ok (.spawn (full_path.cstr PATHSIZE))

end Forex

/-- `sys_forex`. -/
def System.sysForex (s : System) (p : Slot) (filename full_path : Buffer) :
    Except Fault (System × ℤ) := do
  let pagetable ← deref (s.proc p).pagetable
  let tf ← deref (s.proc p).trapframe
  match ← Forex.target s.mem pagetable (s.mem.entry tf Reg.a0.index) filename full_path with
  | .fork => s.fork p
  | .spawn path => s.spawn p path

namespace Forex

/-! ## What it should do -/

/-- The program that a name stands for. -/
def fullName (str : List UInt8) : List UInt8 :=
  if str.head? = some slash then str else slash :: str

/-- The name, with its slash and its null byte, fits into the array. -/
def Fits (str : List UInt8) : Prop := (fullName str).length < PATHSIZE

instance (str : List UInt8) : Decidable (Fits str) := Nat.decLt ..

variable {t : UserTable} {va : ℕ} {str : List UInt8} {filename : Buffer} {full_path : Buffer}

/-- Nothing is written beyond the array, what is spawned is the program that the name
`str` stands for, and a name that fits into the array is spawned. -/
def InBounds (str : List UInt8) (r : Except Fault Target) : Prop :=
  r ≠ .error .fullPath ∧ (∀ path, r = .ok (.spawn path) → path = fullName str) ∧
    (str ≠ [] → Fits str → r = .ok (.spawn (fullName str)))

/-- The process is duplicated only if there is no name: it is empty, or the pointer is
null and there is nothing to read. Otherwise the program with the name is spawned. -/
def Proper (t : UserTable) (va : ℕ) : Except Fault Target → Prop
  | .error _ => False
  | .ok .fork => t.StringAt va [] ∨ va = 0 ∧ ∀ str, ¬ t.StringAt va str
  | .ok (.spawn path) => ∃ str, t.StringAt va str ∧ str ≠ [] ∧ path = fullName str

/-! ## The loop -/

/-- The loop writes the string at its place, if there is room for it. -/
theorem putAll_eq (bs : List UInt8) (full_path : Buffer) (i : ℕ) :
    (PATHSIZE ≤ i + bs.length ∧ putAll bs full_path i = .error .fullPath) ∨
    ∃ buf, i + bs.length < PATHSIZE ∧ putAll bs full_path i = .ok buf ∧
      (∀ j < i, buf j = full_path j) ∧ (∀ j (hj : j < bs.length), buf (i + j) = bs[j]) ∧
      buf (i + bs.length) = 0 := by
  induction bs generalizing full_path i with
  | nil =>
    rw [putAll, put]
    split_ifs with hi
    · refine .inr ⟨_, hi, rfl, fun j hj => update_of_ne (ne_of_lt hj) .., ?_, ?_⟩
      · exact fun j hj => absurd hj (Nat.not_lt_zero j)
      · exact update_self ..
    · exact .inl ⟨not_lt.mp hi, rfl⟩
  | cons b bs ih =>
    rw [putAll, put]
    split_ifs with hi
    · rw [ok_bind]
      rcases ih (update full_path i b) (i + 1) with ⟨hlen, hrun⟩ | ⟨buf, hlen, hrun, hlow, hin, hz⟩
      · exact .inl ⟨by rw [length_cons]; omega, hrun⟩
      · refine .inr ⟨buf, by rw [length_cons]; omega, hrun, fun j hj => ?_, fun j hj => ?_, ?_⟩
        · rw [hlow j (Nat.lt_succ_of_lt hj), update_of_ne (ne_of_lt hj)]
        · cases j with
          | zero => rw [add_zero, hlow i (Nat.lt_succ_self i), update_self]; rfl
          | succ j =>
            rw [getElem_cons_succ, ← hin j (Nat.lt_of_succ_lt_succ hj), Nat.add_right_comm,
              add_assoc]
        · rw [length_cons, add_comm bs.length, ← add_assoc, hz]
    · exact .inl ⟨by omega, rfl⟩

/-- **What becomes of a name that has been read**: the program that it stands for is
spawned, if that fits into the array. -/
theorem target_of_has {filename' : Buffer} (hne : str ≠ []) (hlen : str.length < PATHSIZE)
    (hhas : filename'.Has str)
    (hrun : t.mem.fetchstr t.root filename va PATHSIZE = .ok (filename', (str.length : ℤ))) :
    target t.mem t.root va filename full_path =
      if (fullName str).length < PATHSIZE then .ok (.spawn (fullName str))
      else .error .fullPath := by
  obtain ⟨b, bs, rfl⟩ := exists_cons_of_ne_nil hne
  have hfirst : filename' 0 = b := hhas.byte 0 (Nat.succ_pos _)
  have hb : b ≠ 0 := fun hc => hhas.ne_zero (hc ▸ mem_cons_self)
  unfold target
  rw [hrun, ok_bind]
  simp only [if_neg (not_lt.mpr (Int.natCast_nonneg (b :: bs).length)), hfirst, if_neg hb,
    hhas.cstr_eq hlen]
  by_cases hs : b = slash
  · have hfull : fullName (b :: bs) = b :: bs := if_pos (by rw [hs]; rfl)
    rw [if_neg (not_not.mpr hs), hfull, if_pos hlen]
    rcases putAll_eq (b :: bs) full_path 0 with ⟨hge, -⟩ | ⟨buf, -, hput, -, hin, hz⟩
    · omega
    · rw [hput, ok_bind]
      rw [zero_add] at hz
      have hbuf : buf.Has (b :: bs) :=
        ⟨fun j hj => by rw [← hin j hj, zero_add], hhas.ne_zero, hz⟩
      rw [hbuf.cstr_eq hlen]
  · have hfull : fullName (b :: bs) = slash :: b :: bs :=
      if_neg (fun hc => hs (some.inj hc))
    rw [if_pos hs, hfull, put, if_pos (by decide), ok_bind]
    rcases putAll_eq (b :: bs) (update full_path 0 slash) 1 with
      ⟨hge, hput⟩ | ⟨buf, hlt, hput, hlow, hin, hz⟩
    · rw [hput, if_neg (by rw [length_cons]; omega)]
      rfl
    · rw [hput, ok_bind]
      have hbuf : buf.Has (slash :: b :: bs) := by
        refine ⟨fun j hj => ?_, ?_, ?_⟩
        · cases j with
          | zero => rw [hlow 0 one_pos, update_self]; rfl
          | succ j => rw [getElem_cons_succ, ← hin j (Nat.lt_of_succ_lt_succ hj), add_comm]
        · rw [mem_cons, not_or]
          exact ⟨by decide, hhas.ne_zero⟩
        · rw [length_cons, add_comm]
          exact hz
      have hlen' : (slash :: b :: bs).length < PATHSIZE := by
        rw [length_cons]
        omega
      rw [hbuf.cstr_eq hlen', if_pos hlen']

/-- **What `sys_forex` calls.** A name that is too long, or that cannot be read, is
treated like one that is empty. -/
theorem target_cases (t : UserTable) (va : ℕ) (filename full_path : Buffer) :
    (∃ str, t.StringAt va str ∧ str.length < PATHSIZE ∧ str ≠ [] ∧
      target t.mem t.root va filename full_path =
        if (fullName str).length < PATHSIZE then .ok (.spawn (fullName str))
        else .error .fullPath) ∨ ((∀ str, t.StringAt va str → str = [] ∨ PATHSIZE ≤ str.length) ∧
      target t.mem t.root va filename full_path = .ok .fork) := by
  rcases t.fetchstr_cases filename va PATHSIZE with
    ⟨str, filename', hat, hlen, hhas, -, hrun⟩ | ⟨hlong, filename', hrun⟩
  · by_cases hne : str = []
    · subst hne
      refine .inr ⟨fun str' hat' => .inl (hat'.unique hat), ?_⟩
      unfold target
      rw [hrun, ok_bind]
      exact if_pos hhas.null
    · exact .inl ⟨str, hat, hlen, hne, target_of_has hne hlen hhas hrun⟩
  · refine .inr ⟨fun str hat => .inr (hlong str hat), ?_⟩
    unfold target
    rw [hrun, ok_bind]
    show (if update filename' 0 0 0 = 0 then _ else _) = _
    rw [update_self, if_pos rfl]

/-! ## The array -/

theorem length_fullName (str : List UInt8) :
    (fullName str).length = if str.head? = some slash then str.length else str.length + 1 := by
  unfold fullName
  split <;> rfl

/-- The name is not longer than the program it stands for. -/
theorem length_le_fullName (str : List UInt8) : str.length ≤ (fullName str).length := by
  rw [length_fullName]
  split
  · exact le_rfl
  · exact Nat.le_succ _

/-- **The path is built inside its array**, and is the name with a slash before it if
that is missing, for every name except those of 127 bytes that do not start with a
slash. -/
theorem writes_in_bounds_iff (h : t.StringAt va str) (filename full_path : Buffer) :
    InBounds str (target t.mem t.root va filename full_path) ↔
      ¬ (str.length = 127 ∧ str.head? ≠ some slash) := by
  rcases target_cases t va filename full_path with ⟨str', hat, hlen, hne, heq⟩ | ⟨hlong, heq⟩
  · obtain rfl := hat.unique h
    have hfull : (fullName str').length < PATHSIZE ↔
        ¬ (str'.length = 127 ∧ str'.head? ≠ some slash) := by
      rw [length_fullName]
      split_ifs with hs
      · exact iff_of_true hlen fun hc => hc.2 hs
      · show str'.length + 1 < 128 ↔ _
        have hlen' : str'.length < 128 := hlen
        constructor
        · intro hlt hc
          omega
        · intro hc
          have hne : str'.length ≠ 127 := fun he => hc ⟨he, hs⟩
          omega
    rw [heq, ← hfull]
    split_ifs with hfit
    · refine iff_of_true ⟨nofun, fun path hp => ?_, fun _ _ => rfl⟩ hfit
      obtain rfl := Target.spawn.inj (Except.ok.inj hp)
      rfl
    · exact iff_of_false (fun hc => hc.1 rfl) hfit
  · rw [heq]
    refine iff_of_true ⟨nofun, nofun, fun hne hfit => ?_⟩ ?_
    · have hge := (hlong str h).resolve_left hne
      exact absurd hfit (not_lt.mpr (hge.trans (length_le_fullName str)))
    · rintro ⟨hlen, -⟩
      rcases hlong str h with rfl | hge
      · cases hlen
      · have hge' : 128 ≤ str.length := hge
        omega

/-! ## The call that is made -/

/-- **The process is duplicated only without a name**, and otherwise the program is
spawned, exactly if the name can be read and fits into the array with its slash, or the
pointer is null and there is no string. -/
theorem forks_only_without_name_iff (t : UserTable) (va : ℕ) (filename full_path : Buffer) :
    Proper t va (target t.mem t.root va filename full_path) ↔
      (∃ str, t.StringAt va str ∧ Fits str) ∨ (va = 0 ∧ ∀ str, ¬ t.StringAt va str) := by
  rcases target_cases t va filename full_path with ⟨str, hat, -, hne, heq⟩ | ⟨hlong, heq⟩
  · rw [heq]
    split_ifs with hfit
    · exact iff_of_true ⟨str, hat, hne, rfl⟩ (.inl ⟨str, hat, hfit⟩)
    · refine iff_of_false (fun hc => hc) ?_
      rintro (⟨str', hat', hfit'⟩ | ⟨-, hnone⟩)
      · exact hfit (hat'.unique hat ▸ hfit')
      · exact hnone str hat
  · rw [heq]
    refine or_congr ⟨fun hat => ⟨[], hat, by decide⟩, ?_⟩ Iff.rfl
    rintro ⟨str, hat, hfit⟩
    rcases hlong str hat with rfl | hge
    · exact hat
    · exact absurd hfit (not_lt.mpr (hge.trans (length_le_fullName str)))

/-- **What the call does** for a process: it spawns the program that the name stands for, or
writes beyond the array, or duplicates the process. -/
theorem sysForex_cases {s : System} {p : Slot} {pt tf : ℕ} {A : AddrSpace} (hl : s.Lives p pt tf A)
    (hk : 0 < s.mem.kend) (filename full_path : Buffer) :
    (∃ str, (hl.visible hk).table.StringAt (s.mem.entry tf Reg.a0.index) str ∧ str ≠ [] ∧
      s.sysForex p filename full_path =
        if Fits str then s.spawn p (fullName str) else .error .fullPath) ∨
    ((∀ str, (hl.visible hk).table.StringAt (s.mem.entry tf Reg.a0.index) str →
        str = [] ∨ PATHSIZE ≤ str.length) ∧ s.sysForex p filename full_path = s.fork p) := by
  unfold System.sysForex
  rw [hl.pagetable, hl.trapframe]
  simp only [deref, ok_bind]
  rcases target_cases (hl.visible hk).table (s.mem.entry tf Reg.a0.index) filename full_path with
    ⟨str, hat, -, hne, heq⟩ | ⟨hlong, heq⟩
  · change target s.mem pt _ _ _ = _ at heq
    refine .inl ⟨str, hat, hne, ?_⟩
    rw [heq]
    by_cases hfit : (fullName str).length < PATHSIZE
    · rw [if_pos hfit, if_pos (show Fits str from hfit)]
      rfl
    · rw [if_neg hfit, if_neg (show ¬ Fits str from hfit)]
      rfl
  · change target s.mem pt _ _ _ = _ at heq
    exact .inr ⟨hlong, by rw [heq]; rfl⟩

/-! ## A process with a name in its memory -/

/-- A process that calls `forex` with the address 0, and has this name there. -/
def nameMachine (str : List UInt8) : System :=
  System.userMachine [] (System.freePages 3) (fun o => (str ++ [0]).getD o 0) (fun _ => 0)

theorem nameMachine_lives (str : List UInt8) : 0 < (nameMachine str).mem.kend ∧
    (nameMachine str).Lives 0 System.rootPage 0x87fff000
      (System.userPage fun o => (str ++ [0]).getD o 0) :=
  (System.userMachine_ok _ _ _ _ (by decide +kernel) (by decide +kernel) (by decide +kernel)
    (by decide +kernel)).2

/-- Its page table. -/
def nameTable (str : List UInt8) : UserTable :=
  ((nameMachine_lives str).2.visible (nameMachine_lives str).1).table

theorem stringAt_nameTable (hlen : str.length < PGSIZE) (h0 : 0 ∉ str) :
    (nameTable str).StringAt 0 str :=
  System.stringAt_of_holds _ h0 (System.holds_userPage _ _ _
    (by rw [zero_add, length_append, length_singleton]; exact hlen) (prefix_refl _))

/-- A name of 127 bytes with a slash is spawned. -/
theorem writes_in_bounds_slash : target (nameMachine (slash :: replicate 126 97)).mem
    System.rootPage 0 (fun _ => 0) (fun _ => 0) = .ok (.spawn (slash :: replicate 126 97)) := by
  have hin := (writes_in_bounds_iff (t := nameTable (slash :: replicate 126 97))
    (stringAt_nameTable (by decide +kernel) (by decide +kernel)) (fun _ => 0) (fun _ => 0)).mpr
    (fun hc => hc.2 rfl)
  exact hin.2.2 (cons_ne_nil _ _) (by decide +kernel)

/-- **A name of 127 bytes without a slash** is written beyond the end of `full_path`. -/
theorem full_path_overflow : (nameTable (replicate 127 97)).StringAt 0 (replicate 127 97) ∧
    target (nameMachine (replicate 127 97)).mem System.rootPage 0 (fun _ => 0) (fun _ => 0) =
      .error .fullPath ∧ ¬ InBounds (replicate 127 97) (.error .fullPath) := by
  have hat : (nameTable (replicate 127 97)).StringAt 0 (replicate 127 97) :=
    stringAt_nameTable (by decide +kernel) (by decide +kernel)
  refine ⟨hat, ?_, fun hc => hc.1 rfl⟩
  rcases target_cases (nameTable (replicate 127 97)) 0 (fun _ => 0) (fun _ => 0) with
    ⟨_, hat', -, -, heq⟩ | ⟨hlong, -⟩
  · obtain rfl := hat'.unique hat
    rwa [if_neg (by decide +kernel)] at heq
  · exact absurd (hlong _ hat) (by decide +kernel)

/-- **A bad pointer duplicates the process**: the address 4096 cannot be read. -/
theorem bad_pointer_forks : (∀ str, ¬ (nameTable []).StringAt 4096 str) ∧
    target (nameMachine []).mem System.rootPage 4096 (fun _ => 0) (fun _ => 0) = .ok .fork ∧
    ¬ Proper (nameTable []) 4096 (.ok .fork) := by
  have hnone : ∀ str, ¬ (nameTable []).StringAt 4096 str := by
    intro str hat
    have hno : ¬ MayRead ((nameMachine []).mem.pte System.rootPage 1) := by decide +kernel
    exact hno (hat.readable 0 (Nat.zero_le _)).2
  refine ⟨hnone, ?_, ?_⟩
  · rcases target_cases (nameTable []) 4096 (fun _ => 0) (fun _ => 0) with ⟨str, hat, -⟩ | ⟨-, heq⟩
    · exact absurd hat (hnone str)
    · exact heq
  · rintro (hat | ⟨hz, -⟩)
    · exact hnone [] hat
    · cases hz

end Forex

end Xv6
