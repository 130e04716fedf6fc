import OsProject.Loader

/-!
# Arguments of system calls

A system call finds pointers in the registers of its process, and reads what they
point to with `fetchaddr` and `fetchstr` (`syscall.c`). A string is read into a buffer
of the kernel up to and including its null byte. If that byte is not among the first
`max`, or the string runs into a page that the process cannot read, then the buffer
holds the beginning of the string and the call fails: `fetchstr_cases` says which of
the two happens, in terms of the string that is in the memory of the process.
-/

namespace Xv6

open Phys Paged List

/-! ## The code -/

namespace Buffer

/-- The string at the start of a buffer, for `strlen` and the loops that stop at a null
byte. The buffer has `n` bytes. -/
def cstr (buf : Buffer) (n : ℕ) : List UInt8 := ((List.range n).map buf).takeWhile (· ≠ 0)

/-- The string is at the start of the buffer, with its null byte. -/
structure Has (buf : Buffer) (str : List UInt8) : Prop where
  byte : ∀ i (hi : i < str.length), buf i = str[i]
  ne_zero : 0 ∉ str
  null : buf str.length = 0

end Buffer

namespace Phys

/-- `fetchaddr`, for a process with this page table and size. -/
def fetchaddr (m : Phys) (pagetable sz addr : ℕ) : Except Fault (Option ℕ) :=
  if sz ≤ addr ∨ sz < (addr + 8) % 2 ^ 64 then .ok none
  else do
    let (ip, ok) ← m.copyin pagetable (fun _ => 0) addr 8
    .ok (if ok then some (leNum ((List.range 8).map ip)) else none)

/-- `fetchstr`, with the buffer and what is returned. -/
def fetchstr (m : Phys) (pagetable : ℕ) (buf : Buffer) (addr max : ℕ) :
    Except Fault (Buffer × ℤ) := do
  let (buf, ok) ← m.copyinstr pagetable buf addr max
  .ok (buf, if ok then ((buf.cstr max).length : ℤ) else -1)

end Phys

/-! ## Strings -/

namespace Buffer

variable {buf buf' : Buffer} {str str' : List UInt8} {n : ℕ}

theorem Has.cstr_eq (h : buf.Has str) (hn : str.length < n) : buf.cstr n = str := by
  obtain ⟨k, rfl⟩ : ∃ k, n = str.length + 1 + k := ⟨n - (str.length + 1), by omega⟩
  have hfirst : (range str.length).map buf = str := by
    refine ext_getElem (by rw [length_map, length_range]) fun i hi hi' => ?_
    rw [getElem_map, getElem_range, h.byte i hi']
  unfold cstr
  rw [range_add, map_append, range_succ, map_append, hfirst, map_singleton,
    h.null, append_assoc, takeWhile_append_of_pos, singleton_append,
    takeWhile_cons_of_neg (by decide), append_nil]
  exact fun b hb => decide_eq_true fun hc => h.ne_zero (hc ▸ hb)

end Buffer

namespace UserTable

variable (t : UserTable)

/-- The string `str` is at the address `va`, with its null byte, in pages that the
process can read. -/
structure StringAt (va : ℕ) (str : List UInt8) : Prop where
  byte : ∀ i (hi : i < str.length), t.byte (va + i) = str[i]
  ne_zero : 0 ∉ str
  null : t.byte (va + str.length) = 0
  readable : ∀ i ≤ str.length, t.Readable (va + i)

variable {t} {va max : ℕ} {str str' : List UInt8}

/-- A byte of the string. -/
theorem StringAt.byte_ne_zero (h : t.StringAt va str) {i : ℕ} (hi : i < str.length) :
    t.byte (va + i) ≠ 0 := by
  rw [h.byte i hi]
  exact fun hc => h.ne_zero (hc ▸ getElem_mem hi)

/-- There is only one string at an address. -/
theorem StringAt.unique (h : t.StringAt va str) (h' : t.StringAt va str') : str = str' := by
  have hlen : str.length = str'.length := by
    rcases lt_trichotomy str.length str'.length with hlt | heq | hlt
    · exact absurd h.null (h'.byte_ne_zero hlt)
    · exact heq
    · exact absurd h'.null (h.byte_ne_zero hlt)
  refine ext_getElem hlen fun i hi hi' => ?_
  rw [← h.byte i hi, ← h'.byte i hi']

/-- **What `fetchaddr` does.** It finds the word at the address, or fails. -/
theorem fetchaddr_cases (t : UserTable) (sz addr : ℕ) :
    ∃ r, t.mem.fetchaddr t.root sz addr = .ok r ∧
      ∀ w, r = some w → w = leNum ((List.range 8).map (fun i => t.byte (addr + i))) := by
  unfold fetchaddr
  split_ifs with hsz
  · exact ⟨none, rfl, nofun⟩
  · obtain ⟨_, ok, _, hrun, -, -, hk, hbyte⟩ := t.copyin_exact addr (fun _ => 0) 8
    rw [hrun, ok_bind]
    refine ⟨_, rfl, fun w hw => ?_⟩
    cases ok with
    | false => cases hw
    | true =>
      cases hw
      refine congrArg leNum (map_congr_left (fun i hi => ?_))
      rw [hbyte, hk rfl, if_pos (mem_range.mp hi)]

/-- **What `fetchstr` does.** It finds the string at the address if that has fewer than
`max` bytes, and fails otherwise. -/
theorem fetchstr_cases (t : UserTable) (buf : Buffer) (va max : ℕ) :
    (∃ str buf', t.StringAt va str ∧ str.length < max ∧ buf'.Has str ∧
      (∀ i, str.length < i → buf' i = buf i) ∧
      t.mem.fetchstr t.root buf va max = .ok (buf', (str.length : ℤ))) ∨
    ((∀ str, t.StringAt va str → max ≤ str.length) ∧
      ∃ buf', t.mem.fetchstr t.root buf va max = .ok (buf', -1)) := by
  obtain ⟨k, ok, hrun, htrue, hfalse⟩ := copyinstrLoop_eq buf 0 va (le_refl max)
  have hfetch : t.mem.fetchstr t.root buf va max =
      (copyinstrLoop t.mem t.root max buf 0 va max >>= fun r =>
        .ok (r.1, if r.2 then ((r.1.cstr max).length : ℤ) else -1)) := rfl
  rw [hfetch, hrun, ok_bind]
  have hfill : ∀ i, fill buf 0 (fun i => t.byte (va + i)) k i =
      if i < k then t.byte (va + i) else buf i := by
    intro i
    simp only [fill, zero_le, true_and, zero_add, Nat.sub_zero]
  cases ok with
  | true =>
    obtain ⟨n, hn, rfl, hz, hnz⟩ := htrue rfl
    have hmax : n < max := hn.trans_le (extent_le va max)
    -- the bytes before the first null byte
    obtain ⟨str, rfl, hstr⟩ : ∃ str : List UInt8, str.length = n ∧
        ∀ i (hi : i < str.length), str[i] = t.byte (va + i) :=
      ⟨List.ofFn (fun i : Fin n => t.byte (va + i)), length_ofFn, fun i hi => List.getElem_ofFn hi⟩
    have hne : 0 ∉ str := by
      intro hc
      obtain ⟨i, hi, heq⟩ := getElem_of_mem hc
      exact hnz i hi ((hstr i hi).symm.trans heq)
    have hat : t.StringAt va str := ⟨fun i hi => (hstr i hi).symm, hne, hz, fun i hi =>
      readOk_iff.mp (ok_of_lt_extent (hi.trans_lt hn))⟩
    have hhas : Buffer.Has (fill buf 0 (fun i => t.byte (va + i)) (str.length + 1)) str := by
      refine ⟨fun i hi => ?_, hne, ?_⟩
      · rw [hfill, if_pos (Nat.lt_succ_of_lt hi), hstr i hi]
      · rw [hfill, if_pos (Nat.lt_succ_self _), hz]
    refine .inl ⟨str, _, hat, hmax, hhas, fun i hi => ?_, ?_⟩
    · rw [hfill, if_neg (by omega)]
    · rw [if_pos rfl, hhas.cstr_eq hmax]
  | false =>
    obtain ⟨rfl, hnz⟩ := hfalse rfl
    refine .inr ⟨fun str hat => ?_, _, rfl⟩
    by_contra hlt
    -- the copy would have found the null byte
    have hok : str.length < extent PGSIZE t.readOk va max := by
      by_contra hge
      have hle : extent PGSIZE t.readOk va max ≤ str.length := not_lt.mp hge
      have hstop := not_ok_of_extent_lt (hle.trans_lt (not_le.mp hlt))
      rw [readOk_iff.mpr (hat.readable _ hle)] at hstop
      cases hstop
    exact hnz _ hok hat.null

end UserTable

end Xv6
