import OsProject.SpawnForkExec

/-!
# The loaded image is the file's

The segments of an ELF file are found with the numbers in its headers, which have 64
bits. `exec` and `spawn` read the file with 32-bit offsets, page by page, and load
each segment into pages that were mapped for it or for an earlier one. If the
segments have no page in common, the order does not matter: a page that belongs to
no segment loaded so far holds zeros, so that what is not read from the file is zero
(`loadSegs_holds`).

The offsets are cut off. A size cannot be: a segment of 4 GB or more does not fit
into memory. But a segment whose offset in the file is 4 GB or more is loaded from
the offset modulo 2³², if the file has bytes there. So the loaded image is the
file's exactly if no segment with bytes in the file has such an offset
(`loaded_iff_offsets_fit`).
-/

namespace Xv6

open AddrSpace Function List Option

open Phys (npages)

/-! ## What the file says -/

/-- Segment number `i`, if it is one that is loaded, by the headers of the file. -/
def segment (data : List UInt8) (i : ℕ) : Option ProgHdr :=
  match elfHeader data with
  | none => none
  | some elf =>
    let off := elf.phoff + i * proghdrSize
    let ph := ProgHdr.ofBytes ((data.drop off).take proghdrSize)
    if i < elf.phnum ∧ off + proghdrSize ≤ data.length ∧ ph.type = ELF_PROG_LOAD then some ph
    else none

/-- The pages of a segment. -/
def ProgHdr.Covers (ph : ProgHdr) (v : ℕ) : Prop :=
  ph.vaddr / PGSIZE ≤ v ∧ v * PGSIZE < ph.vaddr + ph.memsz

/-- No two segments have a page in common. -/
def DisjointSegments (data : List UInt8) : Prop :=
  ∀ i j ph ph' v, segment data i = some ph → segment data j = some ph' → ph.Covers v →
    ph'.Covers v → i = j

/-- The address space holds the bytes of the file that the segment has, and zeros
after them. -/
def Holds (data : List UInt8) (A : AddrSpace) (ph : ProgHdr) : Prop :=
  (∀ k < ph.filesz, (A.byte (ph.vaddr + k)).isSome ∧
    A.byte (ph.vaddr + k) = data[ph.off + k]?) ∧
  ∀ k, ph.filesz ≤ k → k < ph.memsz → A.byte (ph.vaddr + k) = some 0

/-- Every segment is in place. -/
def Loaded (data : List UInt8) (A : AddrSpace) : Prop :=
  ∀ i ph, segment data i = some ph → Holds data A ph

/-- No segment with bytes in the file has an offset of more than 32 bits. -/
def OffsetsFit (data : List UInt8) : Prop :=
  ∀ i ph, segment data i = some ph → 0 < ph.filesz → ph.off < 2 ^ 32

/-! ## Reading -/

variable {data : List UInt8} {A A' : AddrSpace} {off n sz va offset i v sz' sp a : ℕ} {ph : ProgHdr}
  {S : Set ℕ} {argv : List (List UInt8)}

/-- A read that got all it asked for. -/
theorem readi_full (h : (readi data off n).length = n) (hn : 0 < n) :
    off + n ≤ data.length ∧ readi data off n = (data.drop off).take n := by
  unfold readi at h ⊢
  split at h
  · rw [length_nil] at h
    omega
  · next hc =>
    rw [if_neg hc]
    rw [length_take, length_drop] at h
    exact ⟨by omega, rfl⟩

/-- The same, for an offset and a number that fit into the file. -/
theorem readi_of_le (h : off + n ≤ data.length) (hsize : data.length < 2 ^ 32) :
    readi data off n = (data.drop off).take n := by
  rw [readi, if_neg]
  rw [not_or, not_lt, not_lt, Nat.mod_eq_of_lt (by omega)]
  omega

/-- A byte that has been written to a page from a file. -/
theorem write_readi {P : Page} {x c : ℕ} (h : (readi data x c).length = c) (o : Fin PGSIZE) :
    (o.val < c → some (Page.write P 0 (readi data x c) o) = data[x + o.val]?) ∧
      (c ≤ o.val → Page.write P 0 (readi data x c) o = P o) := by
  refine ⟨fun ho => ?_, fun ho => ?_⟩
  · obtain ⟨_, heq⟩ := readi_full h (by omega)
    rw [Page.write, if_pos ⟨Nat.zero_le _, by rw [h]; omega⟩, Nat.sub_zero, heq,
      getD_eq_getElem?_getD, getElem?_take_of_lt ho, getElem?_drop,
      getElem?_eq_getElem (by omega : x + o.val < data.length)]
    rfl
  · rw [Page.write, if_neg (by rw [h]; omega)]

/-! ## One segment -/

/-- What is read into page number `i` of a segment. -/
def piece (data : List UInt8) (offset sz i : ℕ) : List UInt8 :=
  readi data ((offset + i * PGSIZE) % 2 ^ 32) (chunk sz (i * PGSIZE))

/-- **What the loop of `loadseg` does.** It reads every piece completely, and writes
it into its page. -/
theorem loadsegLoop_eq {j : ℕ} (h : loadsegLoop data va offset sz A (j * PGSIZE) n = some A') :
    (∀ i, j ≤ i → i < j + n → (piece data offset sz i).length = chunk sz (i * PGSIZE) ∧
      ∃ pg, A (va / PGSIZE + i) = some pg ∧
        A' (va / PGSIZE + i) = some ⟨pg.flags, Page.write pg.bytes 0 (piece data offset sz i)⟩) ∧
    (∀ v, (v < va / PGSIZE + j ∨ va / PGSIZE + j + n ≤ v) → A' v = A v) ∧
    ∀ k, A.Loading k → A'.Loading k := by
  have hdiv : ∀ j, (va + j * PGSIZE) / PGSIZE = va / PGSIZE + j := fun j =>
    Nat.add_mul_div_right _ _ (by decide)
  induction n generalizing A j with
  | zero =>
    cases h
    exact ⟨fun i hi hi' => by omega, fun v _ => rfl, fun k => id⟩
  | succ n ih =>
    rw [loadsegLoop, hdiv] at h
    cases hA : A (va / PGSIZE + j) with
    | none =>
      rw [hA] at h
      cases h
    | some pg =>
      rw [hA] at h
      dsimp only at h
      split_ifs at h with hlen
      rw [← Nat.succ_mul] at h
      obtain ⟨hin, hout, hload⟩ := ih h
      have hself := hout (va / PGSIZE + j) (.inl (by omega))
      rw [update_self] at hself
      refine ⟨fun i hi hi' => ?_, fun v hv => ?_, fun k hk => hload k (hk.write hA _)⟩
      · rcases eq_or_lt_of_le hi with rfl | hlt
        · exact ⟨not_not.mp hlen, pg, hA, hself⟩
        · obtain ⟨hl, pg', hA', hA''⟩ := hin i hlt (by omega)
          rw [update_of_ne (by omega)] at hA'
          exact ⟨hl, pg', hA', hA''⟩
      · rw [hout v (by omega), update_of_ne (by omega)]

theorem chunk_pos (h : i * PGSIZE < sz) : 0 < chunk sz (i * PGSIZE) := by
  unfold chunk
  split
  · omega
  · decide

/-- The offsets of a segment that was read do not wrap around. -/
theorem offset_eq (hsize : data.length < 2 ^ 32) (hoff : offset < 2 ^ 32)
    (h : ∀ i, i * PGSIZE < sz → (piece data offset sz i).length = chunk sz (i * PGSIZE))
    (hi : i * PGSIZE < sz) : (offset + i * PGSIZE) % 2 ^ 32 = offset + i * PGSIZE := by
  induction i with
  | zero => rw [zero_mul, add_zero, Nat.mod_eq_of_lt hoff]
  | succ i ih =>
    have hi' : i * PGSIZE + PGSIZE < sz := Nat.succ_mul i PGSIZE ▸ hi
    have hlt : i * PGSIZE < sz := lt_of_le_of_lt (Nat.le_add_right _ _) hi'
    have hc : chunk sz (i * PGSIZE) = PGSIZE := by
      rw [chunk, if_neg]
      omega
    -- the piece before is a whole page inside the file
    obtain ⟨hle, -⟩ := readi_full (h i hlt) (chunk_pos hlt)
    rw [ih hlt, hc] at hle
    have hfit : offset + (i * PGSIZE + PGSIZE) < 2 ^ 32 := by
      rw [← add_assoc]
      exact hle.trans_lt hsize
    rw [Nat.succ_mul]
    exact Nat.mod_eq_of_lt hfit

theorem byte_eq_of_page {o : ℕ} {pg : UPage} (hv : A v = some pg) (ho : o < PGSIZE) :
    A.byte (v * PGSIZE + o) = some (pg.bytes ⟨o, ho⟩) := by
  have hdiv : (v * PGSIZE + o) / PGSIZE = v := by
    rw [mul_comm, Nat.mul_add_div (by decide), Nat.div_eq_of_lt ho, add_zero]
  have hmod : (v * PGSIZE + o) % PGSIZE = o := by
    rw [mul_comm, Nat.mul_add_mod, Nat.mod_eq_of_lt ho]
  rw [byte, hdiv, hv]
  simp only [map_some, hmod]

/-- **What `loadseg` does**: the bytes of the file are in place, the rest of the last
page and all other pages are as they were, and no page is added. -/
theorem loadseg_eq (hsize : data.length < 2 ^ 32) (hoff : offset < 2 ^ 32) (hva : va % PGSIZE = 0)
    (h : A.loadseg data va offset sz = some A') :
    (∀ k < sz, (A'.byte (va + k)).isSome ∧ A'.byte (va + k) = data[offset + k]?) ∧
      (∀ k, sz ≤ k → A'.byte (va + k) = A.byte (va + k)) ∧
      (∀ v, (v < va / PGSIZE ∨ va / PGSIZE + npages sz ≤ v) → A' v = A v) ∧
      ∀ k, A.Loading k → A'.Loading k := by
  obtain ⟨hin, hout, hload⟩ := loadsegLoop_eq (by rw [zero_mul]; exact h)
  have hpages : ∀ i, i < npages sz ↔ i * PGSIZE < sz := by
    intro i
    show i < (sz + 4096 - 1) / 4096 ↔ i * 4096 < sz
    omega
  have hlen : ∀ i, i * PGSIZE < sz → (piece data offset sz i).length = chunk sz (i * PGSIZE) :=
    fun i hi => (hin i (Nat.zero_le _) (by rw [Nat.zero_add]; exact (hpages i).mpr hi)).1
  -- an address of the segment, as a page and an offset in it
  have haddr : ∀ k, va + k = (va / PGSIZE + k / PGSIZE) * PGSIZE + k % PGSIZE := by
    intro k
    have hva' : va % 4096 = 0 := hva
    show va + k = (va / 4096 + k / 4096) * 4096 + k % 4096
    omega
  have hmod : ∀ k, k % PGSIZE < PGSIZE := fun k => Nat.mod_lt _ (by decide)
  refine ⟨fun k hk => ?_, fun k hk => ?_, fun v hv => hout v (by simpa using hv), hload⟩
  · have hi : k / PGSIZE * PGSIZE < sz := lt_of_le_of_lt (Nat.div_mul_le_self k _) hk
    obtain ⟨hl, pg, -, hA'⟩ := hin (k / PGSIZE) (Nat.zero_le _)
      (by rw [zero_add]; exact (hpages _).mpr hi)
    have hlt : k % PGSIZE < chunk sz (k / PGSIZE * PGSIZE) := by
      have hkm := hmod k
      have hdm : k / PGSIZE * PGSIZE + k % PGSIZE = k := Nat.div_add_mod' k _
      unfold chunk
      split
      · omega
      · exact hkm
    have hb := (write_readi (P := pg.bytes) hl ⟨k % PGSIZE, hmod k⟩).1 hlt
    rw [haddr, byte_eq_of_page hA' (hmod k)]
    refine ⟨rfl, hb.trans ?_⟩
    rw [offset_eq hsize hoff hlen hi, add_assoc, Nat.div_add_mod']
  · rcases lt_or_ge (k / PGSIZE) (npages sz) with hi | hi
    · obtain ⟨hl, pg, hA, hA'⟩ := hin (k / PGSIZE) (Nat.zero_le _) (by rw [Nat.zero_add]; exact hi)
      have hge : chunk sz (k / PGSIZE * PGSIZE) ≤ k % PGSIZE := by
        have hdm : k / PGSIZE * PGSIZE + k % PGSIZE = k := Nat.div_add_mod' k _
        have hkm := hmod k
        unfold chunk
        split
        · omega
        · omega
      rw [haddr, byte_eq_of_page hA' (hmod k), byte_eq_of_page hA (hmod k)]
      exact congrArg some ((write_readi hl ⟨k % PGSIZE, hmod k⟩).2 hge)
    · have hpage : (va + k) / PGSIZE = va / PGSIZE + k / PGSIZE := by
        rw [haddr, mul_comm, Nat.mul_add_div (by decide), Nat.div_eq_of_lt (hmod k), add_zero]
      rw [byte, byte, hpage, hout _ (.inr (by omega))]

/-! ## The loop over the program headers -/

/-- The program header that is read at an offset. -/
def hdrAt (data : List UInt8) (off : ℕ) : ProgHdr := ProgHdr.ofBytes (readi data off proghdrSize)

theorem hdrAt_lt (data : List UInt8) (off : ℕ) :
    (hdrAt data off).vaddr < 2 ^ 64 ∧ (hdrAt data off).memsz < 2 ^ 64 :=
  ⟨field_lt _ _, field_lt _ _⟩

/-- What the checks of a program header guarantee. -/
theorem ProgHdr.of_not_bad (hv : ph.vaddr < 2 ^ 64) (hm : ph.memsz < 2 ^ 64) (h : ¬ ph.bad) :
    ph.filesz ≤ ph.memsz ∧ ph.vaddr + ph.memsz < 2 ^ 64 ∧ ph.vaddr % PGSIZE = 0 := by
  unfold ProgHdr.bad at h
  simp only [not_or, not_lt, not_not] at h
  obtain ⟨hfs, _, hal⟩ := h
  exact ⟨hfs, by omega, hal⟩

/-- A page of a segment that starts at the beginning of a page. -/
theorem ProgHdr.covers_iff (hal : ph.vaddr % PGSIZE = 0) :
    ph.Covers v ↔ ph.vaddr / PGSIZE ≤ v ∧ v < ph.vaddr / PGSIZE + npages ph.memsz := by
  have hal' : ph.vaddr % 4096 = 0 := hal
  show (ph.vaddr / 4096 ≤ v ∧ v * 4096 < ph.vaddr + ph.memsz) ↔
    (ph.vaddr / 4096 ≤ v ∧ v < ph.vaddr / 4096 + (ph.memsz + 4096 - 1) / 4096)
  omega

theorem le_uvmalloc (A : AddrSpace) (sz newsz xperm : ℕ) :
    sz ≤ (A.uvmalloc sz newsz xperm).2 ∧ newsz ≤ (A.uvmalloc sz newsz xperm).2 := by
  unfold uvmalloc
  split_ifs with hlt
  · exact ⟨le_rfl, hlt.le⟩
  · exact ⟨not_lt.mp hlt, le_rfl⟩

/-- **One turn of the loop**: the header is in the file, and its segment is skipped or loaded. -/
theorem loadSegs_succ (hsize : data.length < 2 ^ 32) (hph : hdrAt data off = ph)
    (h : loadSegs data (n + 1) A off sz = some (A', sz')) : off + proghdrSize ≤ data.length ∧
      (ph.type ≠ ELF_PROG_LOAD ∧ loadSegs data n A (off + proghdrSize) sz = some (A', sz') ∨
      ph.type = ELF_PROG_LOAD ∧ ph.filesz ≤ ph.memsz ∧ ph.vaddr % PGSIZE = 0 ∧ ∃ A₀ sz₁ A₁,
        A.uvmalloc sz (ph.vaddr + ph.memsz) (flags2perm ph.flags) = (A₀, sz₁) ∧
        A₀.loadseg data ph.vaddr (ph.off % 2 ^ 32) (ph.filesz % 2 ^ 32) = some A₁ ∧
        loadSegs data n A₁ (off + proghdrSize) sz₁ = some (A', sz')) := by
  obtain ⟨hv64, hm64⟩ := hph ▸ hdrAt_lt data off
  rw [loadSegs] at h
  dsimp only at h
  rw [show ProgHdr.ofBytes (readi data off proghdrSize) = ph from hph] at h
  split_ifs at h with hlen htype hbad hz
  all_goals
    obtain ⟨hle, -⟩ := readi_full (not_not.mp hlen) (by decide)
    rw [Nat.mod_eq_of_lt (hle.trans_lt hsize)] at h
  · exact ⟨hle, .inl ⟨htype, h⟩⟩
  · obtain ⟨hfs, hsum, hal⟩ := ProgHdr.of_not_bad hv64 hm64 hbad
    rw [Nat.mod_eq_of_lt hsum] at h
    split at h
    · cases h
    · next A₁ hseg => exact ⟨hle, .inr ⟨not_not.mp htype, hfs, hal, _, _, A₁, rfl, hseg, h⟩⟩

/-- The address space does not shrink. -/
theorem loadSegs_le (hsize : data.length < 2 ^ 32)
    (h : loadSegs data n A off sz = some (A', sz')) : sz ≤ sz' := by
  induction n generalizing A off sz with
  | zero =>
    cases h
    exact le_rfl
  | succ n ih =>
    obtain ⟨-, ⟨-, h⟩ | ⟨-, -, -, _, _, _, hmap, -, h⟩⟩ := loadSegs_succ hsize rfl h
    · exact ih h
    · exact (hmap ▸ le_uvmalloc A sz _ _).1.trans (ih h)

/-- **Loading one segment** whose pages hold zeros: it is in place, and the other
pages are as they were, with new pages of zeros above. -/
theorem loadSegment_holds {A₀ A₁ : AddrSpace} {sz₁ xperm : ℕ} (hsize : data.length < 2 ^ 32)
    (hl : A.Loading (npages sz)) (hS : ∀ v ∈ S, v < npages sz)
    (hzero : ∀ v pg, A v = some pg → v ∉ S → pg.bytes = fun _ => 0) (hfs : ph.filesz ≤ ph.memsz)
    (hal : ph.vaddr % PGSIZE = 0) (hdis : ∀ v, ph.Covers v → v ∉ S)
    (hfit : 0 < ph.filesz → ph.off < 2 ^ 32) (hsmall : sz₁ < 2 ^ 32)
    (hU : hasFlag (pageFlags xperm) PTE_U = true)
    (hmap : A.uvmalloc sz (ph.vaddr + ph.memsz) xperm = (A₀, sz₁))
    (h : A₀.loadseg data ph.vaddr (ph.off % 2 ^ 32) (ph.filesz % 2 ^ 32) = some A₁) :
    A₁.Loading (npages sz₁) ∧ (∀ v ∈ S, A₁ v = A v) ∧
      (∀ v pg, A₁ v = some pg → v ∉ S → ¬ ph.Covers v → pg.bytes = fun _ => 0) ∧
      Holds data A₁ ph := by
  have hl₀ := (Phys.Loading.uvmalloc hl (ph.vaddr + ph.memsz) hU).1
  obtain ⟨-, hle⟩ := le_uvmalloc A sz (ph.vaddr + ph.memsz) xperm
  -- what `uvmalloc` adds are zeros
  have hpage : ∀ v, A₀ v = A v ∨ v ∉ S ∧ ∀ pg, A₀ v = some pg → pg.bytes = fun _ => 0 := by
    intro v
    rw [show A₀ = _ from (congrArg Prod.fst hmap).symm]
    unfold uvmalloc grow
    split_ifs with hlt
    · exact .inl rfl
    · dsimp only
      split_ifs with hv
      · exact .inr ⟨fun hvS => by have := hS v hvS; omega, fun pg hpg => by cases hpg; rfl⟩
      · exact .inl rfl
  rw [hmap] at hl₀ hle
  have hnew : ∀ v pg, A₀ v = some pg → v ∉ S → pg.bytes = fun _ => 0 := fun v pg hv hvS =>
    (hpage v).elim (fun heq => hzero v pg (heq ▸ hv) hvS) fun h => h.2 pg hv
  rw [Nat.mod_eq_of_lt (by omega : ph.filesz < 2 ^ 32)] at h
  obtain ⟨hbytes, hrest, hother, hload⟩ := loadseg_eq hsize (Nat.mod_lt _ (by decide)) hal h
  have hout : ∀ v, ¬ ph.Covers v → A₁ v = A₀ v := by
    intro v hv
    have hpages : npages ph.filesz ≤ npages ph.memsz := Phys.npages_le hfs
    rw [ProgHdr.covers_iff hal] at hv
    exact hother v (by omega)
  refine ⟨hload _ hl₀, fun v hv => ?_, fun v pg hv hvS hvc => ?_, fun k hk => ?_,
    fun k hk hk' => ?_⟩
  · rw [hout v (fun hc => hdis v hc hv)]
    exact (hpage v).resolve_right fun h => h.1 hv
  · rw [hout v hvc] at hv
    exact hnew v pg hv hvS
  · have hb := hbytes k hk
    rwa [Nat.mod_eq_of_lt (hfit (by omega))] at hb
  · -- beyond the bytes of the file the page is as it was mapped
    rw [hrest k hk]
    have hv : ph.Covers ((ph.vaddr + k) / PGSIZE) := by
      show ph.vaddr / 4096 ≤ (ph.vaddr + k) / 4096 ∧
        (ph.vaddr + k) / 4096 * 4096 < ph.vaddr + ph.memsz
      omega
    have hmapped : (A₀ ((ph.vaddr + k) / PGSIZE)).isSome := by
      rw [hl₀.spans]
      show (ph.vaddr + k) / 4096 < (sz₁ + 4096 - 1) / 4096
      omega
    obtain ⟨pg, hpg⟩ := isSome_iff_exists.mp hmapped
    rw [byte, hpg, map_some, hnew _ pg hpg (hdis _ hv)]

/-- A segment depends on its own bytes only. -/
theorem Holds.of_byte (h : Holds data A ph) (hfs : ph.filesz ≤ ph.memsz)
    (hbyte : ∀ k < ph.memsz, A'.byte (ph.vaddr + k) = A.byte (ph.vaddr + k)) :
    Holds data A' ph := by
  refine ⟨fun k hk => ?_, fun k hk hk' => ?_⟩
  · rw [hbyte k (hk.trans_le hfs)]
    exact h.1 k hk
  · rw [hbyte k hk']
    exact h.2 k hk hk'

/-- So it depends on its own pages only. -/
theorem Holds.congr (h : Holds data A ph) (hfs : ph.filesz ≤ ph.memsz)
    (hA : ∀ v, ph.Covers v → A' v = A v) : Holds data A' ph := by
  refine h.of_byte hfs fun k hk => ?_
  rw [byte, byte, hA]
  refine ⟨Nat.div_le_div_right (Nat.le_add_right _ _), ?_⟩
  exact lt_of_le_of_lt (Nat.div_mul_le_self _ _) (Nat.add_lt_add_left hk _)

/-- **The loop over the program headers loads every segment.** `S` are the pages of
the segments that have been loaded; the other pages hold zeros. -/
theorem loadSegs_holds {hdr : ℕ → ProgHdr} (hsize : data.length < 2 ^ 32)
    (hhdr : ∀ i, hdrAt data (off + i * proghdrSize) = hdr i) (hl : A.Loading (npages sz))
    (hS : ∀ v ∈ S, v < npages sz) (hzero : ∀ v pg, A v = some pg → v ∉ S → pg.bytes = fun _ => 0)
    (hdisS : ∀ i < n, (hdr i).type = ELF_PROG_LOAD → ∀ v, (hdr i).Covers v → v ∉ S)
    (hdis : ∀ i < n, ∀ j < n, (hdr i).type = ELF_PROG_LOAD → (hdr j).type = ELF_PROG_LOAD →
      ∀ v, (hdr i).Covers v → (hdr j).Covers v → i = j)
    (hfit : ∀ i < n, (hdr i).type = ELF_PROG_LOAD → 0 < (hdr i).filesz → (hdr i).off < 2 ^ 32)
    (hsmall : sz' < 2 ^ 32) (h : loadSegs data n A off sz = some (A', sz')) :
    (∀ v ∈ S, A' v = A v) ∧ ∀ i < n, (hdr i).type = ELF_PROG_LOAD → Holds data A' (hdr i) ∧
      (hdr i).filesz ≤ (hdr i).memsz ∧ (hdr i).vaddr + (hdr i).memsz ≤ sz' := by
  induction n generalizing A off sz S hdr with
  | zero =>
    cases h
    exact ⟨fun _ _ => rfl, fun i hi => absurd hi (Nat.not_lt_zero i)⟩
  | succ n ih =>
    -- the headers that are left, counted from the first
    have hhdr' : ∀ i, hdrAt data (off + proghdrSize + i * proghdrSize) = hdr (i + 1) := fun i => by
      rw [← hhdr, Nat.succ_mul, add_assoc, add_comm proghdrSize]
    have hdis' := fun i (hi : i < n) j (hj : j < n) hti htj v hvi hvj => Nat.succ.inj
      (hdis (i + 1) (by omega) (j + 1) (by omega) hti htj v hvi hvj)
    have hfit' := fun i (hi : i < n) => hfit (i + 1) (by omega)
    have hfirst : hdrAt data off = hdr 0 := by rw [← hhdr, zero_mul, add_zero]
    obtain ⟨-, ⟨htype, h⟩ | ⟨hload, hfs, hal, _, sz₁, _, hmap, hseg, h⟩⟩ :=
      loadSegs_succ hsize hfirst h
    · obtain ⟨hS', hrest⟩ := ih hhdr' hl hS hzero (fun i hi => hdisS (i + 1) (by omega))
        hdis' hfit' h
      refine ⟨hS', fun i hi hti => ?_⟩
      cases i with
      | zero => exact absurd hti htype
      | succ i => exact hrest i (by omega) hti
    · have hmono := loadSegs_le hsize h
      obtain ⟨hold, hle⟩ := hmap ▸ le_uvmalloc A sz ((hdr 0).vaddr + (hdr 0).memsz) _
      obtain ⟨hl₁, hS₁, hzero₁, hholds⟩ := loadSegment_holds hsize hl hS hzero hfs hal
        (hdisS 0 (Nat.succ_pos n) hload) (hfit 0 (Nat.succ_pos n) hload)
        (hmono.trans_lt hsmall) (Phys.isLeaf_flags2perm _).2 hmap hseg
      have hcov : ∀ v, (hdr 0).Covers v → v < npages sz₁ := by
        rintro v ⟨-, hv⟩
        change v * 4096 < _ at hv
        show v < (sz₁ + 4096 - 1) / 4096
        omega
      obtain ⟨hS', hrest⟩ := ih (S := S ∪ {v | (hdr 0).Covers v}) hhdr' hl₁
        (fun v hv => hv.elim (fun hv => lt_of_lt_of_le (hS v hv) (Phys.npages_le hold)) (hcov v))
        (fun v pg hv hvS => hzero₁ v pg hv (fun hc => hvS (.inl hc)) (fun hc => hvS (.inr hc)))
        (fun i hi hti v hv hvS => hvS.elim (hdisS (i + 1) (by omega) hti v hv) fun hv₀ =>
          nomatch hdis 0 (Nat.succ_pos n) (i + 1) (by omega) hload hti v hv₀ hv) hdis' hfit' h
      refine ⟨fun v hv => (hS' v (.inl hv)).trans (hS₁ v hv), fun i hi hti => ?_⟩
      cases i with
      | zero => exact ⟨hholds.congr hfs (fun v hv => hS' v (.inr hv)), hfs, hle.trans hmono⟩
      | succ i => exact hrest i (by omega) hti

/-! ## The stack -/

/-- The arguments are written above the guard page. -/
theorem byte_pushArgs {stackbase sp' : ℕ} {ustack us : List ℕ}
    (h : pushArgs stackbase argv A sp ustack = some (A', sp', us)) (ha : a < stackbase) :
    A'.byte a = A.byte a := by
  induction argv generalizing A sp ustack with
  | nil =>
    cases h
    rfl
  | cons s argv ih =>
    rw [pushArgs] at h
    dsimp only at h
    split_ifs at h with hmax hbase hok
    rw [ih h, byte_copyout_of_lt _ (ha.trans_le (not_lt.mp hbase))]

/-- **Building the stack leaves the program alone.** -/
theorem byte_buildStack {sz argc : ℕ} (h : A.buildStack n argv = some (A', sz, sp, argc)) :
    sz = (n + (USERSTACK + 1)) * PGSIZE ∧ ∀ a < n * PGSIZE, A'.byte a = A.byte a := by
  unfold buildStack at h
  dsimp only at h
  split at h
  · cases h
  · next A₁ sp₁ us hpush =>
    split_ifs at h with hmax hbase hok
    obtain ⟨rfl, heq⟩ := Prod.mk.inj (some.inj h)
    cases heq
    refine ⟨rfl, fun a ha => ?_⟩
    change a < n * 4096 at ha
    have hlow : a < (n + (USERSTACK + 1)) * PGSIZE - USERSTACK * PGSIZE := by
      show a < (n + 2) * 4096 - 1 * 4096
      omega
    rw [byte_copyout_of_lt _ (hlow.trans_le (not_lt.mp hbase)), byte_pushArgs hpush hlow]
    have hne : a / PGSIZE ≠ n := by
      show a / 4096 ≠ n
      omega
    have hlt : a / PGSIZE < n := by
      show a / 4096 < n
      omega
    rw [byte, byte, clear, update_of_ne hne, grow, if_neg (by omega)]

/-! ## The image -/

section

variable (hsize : data.length < 2 ^ 32)
include hsize

/-- The headers that `exec` reads are those of the file. -/
theorem segment_eq_some (h : segment data i = some ph) :
    ∃ elf, elfHeader data = some elf ∧ elf.phoff < 2 ^ 32 ∧ i < elf.phnum ∧
      ph = hdrAt data (elf.phoff + i * proghdrSize) ∧ ph.type = ELF_PROG_LOAD := by
  unfold segment at h
  cases helf : elfHeader data with
  | none =>
    rw [helf] at h
    cases h
  | some elf =>
    rw [helf] at h
    dsimp only at h
    split_ifs at h with hc
    obtain ⟨hi, hle, htype⟩ := hc
    cases h
    refine ⟨elf, rfl, ?_, hi, ?_, htype⟩
    · exact lt_of_le_of_lt (le_trans (Nat.le_add_right _ _) (le_trans (Nat.le_add_right _ _) hle))
        hsize
    · rw [hdrAt, readi_of_le hle hsize]

theorem segment_of_hdrAt {elf : ElfHdr} (helf : elfHeader data = some elf)
    (hi : i < elf.phnum) (hle : elf.phoff + i * proghdrSize + proghdrSize ≤ data.length)
    (htype : (hdrAt data (elf.phoff + i * proghdrSize)).type = ELF_PROG_LOAD) :
    segment data i = some (hdrAt data (elf.phoff + i * proghdrSize)) := by
  have heq : hdrAt data (elf.phoff + i * proghdrSize) =
      ProgHdr.ofBytes ((data.drop (elf.phoff + i * proghdrSize)).take proghdrSize) := by
    rw [hdrAt, readi_of_le hle hsize]
  rw [heq] at htype ⊢
  unfold segment
  rw [helf]
  exact if_pos ⟨hi, hle, htype⟩

/-- Every header was read completely. -/
theorem le_of_loadSegs (h : loadSegs data n A off sz = some (A', sz'))
    (hi : i < n) : off + i * proghdrSize + proghdrSize ≤ data.length := by
  induction n generalizing A off sz i with
  | zero => exact absurd hi (Nat.not_lt_zero i)
  | succ n ih =>
    obtain ⟨_, hrest⟩ := loadSegs_succ hsize rfl h
    cases i with
    | zero => rwa [zero_mul, add_zero]
    | succ i =>
      rw [Nat.succ_mul, add_comm (i * proghdrSize), ← add_assoc off]
      obtain ⟨-, h⟩ | ⟨-, -, -, _, _, _, -, -, h⟩ := hrest
      · exact ih h (by omega)
      · exact ih h (by omega)

/-- **What a file is loaded to holds its segments exactly if their offsets fit.** -/
theorem loaded_loadFile_iff {img : Image} (hdis : DisjointSegments data)
    (h : loadFile data argv = some img) (hsmall : img.sz ≤ PHYSTOP) :
    Loaded data img.pages ↔ OffsetsFit data := by
  constructor
  · -- a byte that is there is a byte of the file
    intro hload i ph hseg hpos
    obtain ⟨hsome, heq⟩ := (hload i ph hseg).1 0 hpos
    rw [heq, add_zero] at hsome
    obtain ⟨_, hb⟩ := isSome_iff_exists.mp hsome
    exact lt_trans (List.getElem?_eq_some_iff.mp hb).1 hsize
  · intro hfit i ph hseg
    obtain ⟨elf, helf, hphoff, hi, rfl, htype⟩ := segment_eq_some hsize hseg
    unfold loadFile at h
    rw [helf] at h
    dsimp only at h
    rw [Nat.mod_eq_of_lt hphoff] at h
    split at h
    · cases h
    · next A₁ sz₁ hsegs =>
      split at h
      · cases h
      · next A₂ sz₂ sp argc hstack =>
        cases h
        have hin : ∀ j < elf.phnum, (hdrAt data (elf.phoff + j * proghdrSize)).type =
            ELF_PROG_LOAD → segment data j = some (hdrAt data (elf.phoff + j * proghdrSize)) :=
          fun j hj htj => segment_of_hdrAt hsize helf hj (le_of_loadSegs hsize hsegs hj) htj
        obtain ⟨hsz₂, hbelow⟩ := byte_buildStack hstack
        have hsz₁ : sz₁ < 2 ^ 32 := by
          have hle := Phys.le_npages_mul sz₁
          have hsmall' : sz₂ ≤ 0x88000000 := hsmall
          have hsz₂' : sz₂ = (npages sz₁ + 2) * 4096 := hsz₂
          have hle' : sz₁ ≤ npages sz₁ * 4096 := hle
          omega
        obtain ⟨-, hholds⟩ := loadSegs_holds hsize (fun _ => rfl)
          (by rw [Phys.npages_zero]; exact AddrSpace.Loading.empty) (fun v hv => hv.elim)
          (fun v pg hv => by cases hv) (fun j hj _ v _ hv => hv)
          (fun j hj k hk htj htk v hvj hvk => hdis j k _ _ v (hin j hj htj) (hin k hk htk) hvj hvk)
          (fun j hj htj => hfit j _ (hin j hj htj)) hsz₁ hsegs
        obtain ⟨hseg, hfs, hle⟩ := hholds i hi htype
        -- the stack is above the program
        exact hseg.of_byte hfs fun k hk => hbelow _ (lt_of_lt_of_le (Nat.add_lt_add_left hk _)
          (hle.trans (Phys.le_npages_mul sz₁)))

end

/-! ## The calls -/

namespace System

variable {s : System} {p : Slot} {path : List UInt8} {pt tf : ℕ}

/-- The memory of a program that `exec` has loaded. -/
theorem exec_userMemory (h : s.Ok p) (hl : s.Lives p pt tf A) {s' : System} {r : ℤ}
    (hrun : s.exec p path argv = .ok (s', r)) (hr : r ≠ -1) {d n : ℕ}
    (hres : s.fs.resolve (s.proc p).cwd path = some (d, n)) :
    ∃ img, loadFile (s.fs.disk d n).data argv = some img ∧ img.sz ≤ PHYSTOP ∧
      s'.userMemory p = img.pages := by
  obtain ⟨_, _, img, _, hres', hload, hle, -, hproc, -, -, ⟨_, hspace⟩, -⟩ :=
    exec_done h hl hrun hr
  cases hres.symm.trans hres'
  refine ⟨img, hload, hle, ?_⟩
  rw [userMemory, hproc, setProc_proc_self, elim_some, hspace.userPages]

/-- **The loaded image is the file's exactly if the offsets fit.** If `exec` or `spawn`
succeeds with a file whose segments have no page in common, then the memory of the
program holds each segment as the file has it, if and only if no segment that has
bytes in the file has an offset of 4 GB or more. -/
theorem loaded_iff_offsets_fit (h : s.Ok p) (hl : s.Lives p pt tf A) {d n : ℕ}
    (hres : s.fs.resolve (s.proc p).cwd path = some (d, n))
    (hsize : (s.fs.disk d n).data.length < 2 ^ 32) (hdis : DisjointSegments (s.fs.disk d n).data) :
    (∀ argv s' r, s.exec p path argv = .ok (s', r) → r ≠ -1 →
      (Loaded (s.fs.disk d n).data (s'.userMemory p) ↔ OffsetsFit (s.fs.disk d n).data)) ∧
    ∀ s' pid c, s.spawn p path = .ok (s', pid) → pid ≠ -1 → s.IsNew s' c pid →
      (Loaded (s.fs.disk d n).data (s'.userMemory c) ↔ OffsetsFit (s.fs.disk d n).data) := by
  refine ⟨fun argv s' r hrun hr => ?_, fun s' pid c hrun hpid hc => ?_⟩
  · obtain ⟨_, hload, hle, hmem⟩ := exec_userMemory h hl hrun hr hres
    rw [hmem]
    exact loaded_loadFile_iff hsize hdis hload hle
  · obtain ⟨-, _, _, _, _, d', n', img, _, -, -, hres', hload, hle, hlaunch, -, -, -, hpt,
      hpages, -⟩ := spawn_done h hl hrun hpid
    cases hres.symm.trans hres'
    obtain rfl := hlaunch.eq_of_isNew hc
    have hmem : s'.userMemory c = img.pages := by
      rw [userMemory, hlaunch.proc_np, hpt, elim_some, hpages]
    rw [hmem]
    exact loaded_loadFile_iff hsize hdis hload hle

/-- A file with one program header has at most one segment. -/
theorem eq_zero_of_segment (h : (elfHeader data).map ElfHdr.phnum = some 1)
    (hseg : segment data i = some ph) : i = 0 := by
  unfold segment at hseg
  cases helf : elfHeader data with
  | none =>
    rw [helf] at h
    cases h
  | some =>
    rw [helf] at h hseg
    dsimp only at hseg
    split_ifs at hseg with hc
    have hone := some.inj h
    omega

theorem disjointSegments_of_phnum (h : (elfHeader data).map ElfHdr.phnum = some 1) :
    DisjointSegments data := by
  intro i j ph ph' v hi hj _ _
  rw [eq_zero_of_segment h hi, eq_zero_of_segment h hj]

/-- Executing the file `a`, if there is nothing wrong with it. -/
theorem exec_of_loads (h : s.Ok p) (hl : s.Lives p pt tf A)
    (hload : loads (s.loadOnly p tf [slash, 97] []) 0 = true) :
    ∃ s', s.exec p [slash, 97] [] = .ok (s', 0) := by
  obtain ⟨_, _, hload⟩ := exists_of_loads hload
  exact exec_of_loadOnly h hl hload

/-- A segment at the offset 0. -/
theorem loaded_oneByteElf : ∃ s',
    (fileMachine (oneByteElf 0) (freePages 11)).exec 0 [slash, 97] [] = .ok (s', 0) ∧
    Loaded (oneByteElf 0) (s'.userMemory 0) := by
  obtain ⟨hok, -, _, hl⟩ := fileMachine_ok (oneByteElf 0) (freePages 11) (by decide) (by decide)
  obtain ⟨s', hrun⟩ := exec_of_loads hok hl (by decide +kernel)
  refine ⟨s', hrun, ((loaded_iff_offsets_fit (d := ROOTDEV) (n := 2) hok hl (by decide +kernel)
    (by decide) (disjointSegments_of_phnum (by decide +kernel))).1 [] s' 0 hrun (by decide)).mpr ?_⟩
  intro i ph hseg _
  obtain rfl := eq_zero_of_segment (by decide +kernel) hseg
  have hoff : (segment (oneByteElf 0) 0).map ProgHdr.off = some 0 := by decide +kernel
  rw [show segment (oneByteElf 0) 0 = some ph from hseg] at hoff
  rw [some.inj hoff]
  decide

/-- **A segment at the offset 2³²** is loaded from the beginning of the file: the
program finds the first byte of the ELF header in its place. -/
theorem offset_cut_off : ∃ s', DisjointSegments (oneByteElf 1) ∧
    (fileMachine (oneByteElf 1) (freePages 11)).exec 0 [slash, 97] [] = .ok (s', 0) ∧
    (s'.userMemory 0).byte 0 = some 0x7f ∧ ¬ Loaded (oneByteElf 1) (s'.userMemory 0) := by
  obtain ⟨hok, -, _, hl⟩ := fileMachine_ok (oneByteElf 1) (freePages 11) (by decide) (by decide)
  obtain ⟨s', hrun⟩ := exec_of_loads hok hl (by decide +kernel)
  obtain ⟨img, hload, -, hmem⟩ := exec_userMemory hok hl hrun (by decide)
    (d := ROOTDEV) (n := 2) (by decide +kernel)
  have hbyte : (loadFile (oneByteElf 1) []).map (fun img => img.pages.byte 0) =
    some (some 0x7f) := by decide +kernel
  rw [show loadFile (oneByteElf 1) [] = some img from hload] at hbyte
  refine ⟨s', disjointSegments_of_phnum (by decide +kernel), hrun,
    hmem ▸ some.inj hbyte, fun hc => ?_⟩
  -- the file has no byte at the offset
  have hseg : (segment (oneByteElf 1) 0).map (fun ph => (ph.off, ph.filesz)) =
    some (2 ^ 32, 1) := by decide +kernel
  cases hph : segment (oneByteElf 1) 0 with
  | none =>
    rw [hph] at hseg
    cases hseg
  | some ph =>
    rw [hph] at hseg
    obtain ⟨hoff, hfilesz⟩ := Prod.mk.inj (some.inj hseg)
    obtain ⟨hsome, heq⟩ := (hc 0 ph hph).1 0 (hfilesz ▸ one_pos)
    rw [heq, hoff, getElem?_eq_none (by decide)] at hsome
    cases hsome

end System

end Xv6
