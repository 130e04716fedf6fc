import OsProject.Fibers
import OsProject.HeldRefs
import OsProject.Isolation

/-!
# The file table

A descriptor of a process refers to an entry of the file table, and that to an inode or to
an end of a pipe; the current directory of a process is a reference to an inode, too. All
of these are counted: in the entry of the file table, in the entry of the inode table, and
by the two words `readopen` and `writeopen` in the page of a pipe.

`Balanced` says that the counts are right: they are the numbers of places that refer to
the object (`fiber`). During a call there are references that are not in any of these
places yet, or no longer; they are on two lists, one of files and one of inodes. Between
calls the lists are empty. The functions of `file.c`, `pipe.c` and `sysfile.c` move
references between the places and the lists.

The pages of pipes are the pages that the kernel owns, so `Balanced` also says that the
memory is in order, for processes with the homes `L`.
-/

namespace Xv6

open Function (comp_update update update_eq_self update_of_ne update_self update_apply)

open Phys Set List Option

namespace Page

/-- `pi->writeopen` or `pi->readopen`. -/
def isOpen (P : Page) (w : Bool) : ℕ := if w then P.writeopen else P.readopen

/-- The ends of a pipe that have been written. -/
theorem isOpen_setEnds (P : Page) {a b : ℕ} (ha : a ≤ 1) (hb : b ≤ 1) (w : Bool) :
    (P.setEnds a b).isOpen w = if w then b else a := by
  unfold isOpen readopen writeopen setEnds
  rw [word_setWord_self _ _ (by omega)]
  cases w <;> simp <;> omega

end Page

namespace Sysfile

/-- The inode that a file refers to. -/
def File.inodeOf (ff : File) : Option (Fin NINODE) :=
  if ff.type = .inode ∨ ff.type = .device then ff.ip else none

/-- The end of a pipe that a file refers to: the page of the pipe, and whether it is the
end for writing. -/
def File.endOf (ff : File) : Option (ℕ × Bool) :=
  if ff.type = .pipe then ff.pipe.map (·, ff.writable) else none

namespace State

/-- The descriptors, all together. -/
def fd (t : State) : Slot × Fin NOFILE → Option (Fin NFILE) := fun x => (t.proc x.1).ofile x.2

def inodes (t : State) : Fin NFILE → Option (Fin NINODE) := fun f => (t.file f).inodeOf

def ends (t : State) : Fin NFILE → Option (ℕ × Bool) := fun f => (t.file f).endOf

def cwds (t : State) : Slot → Option (Fin NINODE) := fun p => (t.proc p).cwd

/-- How many files and processes refer to an inode. -/
def users (t : State) (i : Fin NINODE) : ℕ := fiber t.inodes (some i) + fiber t.cwds (some i)

/-- The pages of pipes. -/
def pipes (t : State) : Set ℕ := {pi | ∃ f w, t.ends f = some (pi, w)}

/-- **The references are balanced.** A call holds the references to files in `x` and those
to inodes in `y`, and the processes have the homes `L`. The pages in `S` are free or those of
pipes. -/
structure Balanced (L : Slot → Option Home) (S : Set ℕ) (x : List (Fin NFILE))
    (y : List (Fin NINODE))
    (t : State) : Prop where
  count : ∀ f, (t.file f).ref = fiber t.fd (some f) + x.count f
  closed : ∀ f, (t.file f).ref = 0 → (t.file f).type = .none
  /-- No descriptor refers to a file that has not been set up. -/
  typed : ∀ z f, t.fd z = some f → (t.file f).type ≠ .none
  named : ∀ f, (t.file f).type ≠ .none → (t.inodes f).isSome ∨ (t.ends f).isSome
  held : t.fs.Holds t.users y
  /-- Each end of a pipe has one file. -/
  one : ∀ e, fiber t.ends (some e) ≤ 1
  isOpen : ∀ pi ∈ t.pipes, ∀ w, (t.mem.page pi).isOpen w = fiber t.ends (some (pi, w))
  isolated : t.mem.Isolated L t.pipes
  /-- No page is lost. -/
  stock : t.mem.free ∪ t.pipes = S
  table : ∀ p, (t.proc p).pagetable = (L p).map Home.pagetable

variable {t t' : State} {L : Slot → Option Home} {S : Set ℕ} {x x' : List (Fin NFILE)}
  {y y' : List (Fin NINODE)} {p : Slot} {f g : Fin NFILE} {i j : Fin NINODE} {ff : File}
  {fdn : Fin NOFILE} {o : Option (Fin NFILE)} {fs : Fs} {m : Phys} {P : Proc} {pi : ℕ} {w : Bool}

section Projections

@[simp] theorem cwds_setFile : (t.setFile f ff).cwds = t.cwds := rfl
@[simp] theorem inodes_setProc : (t.setProc p P).inodes = t.inodes := rfl
@[simp] theorem ends_setMem : (t.setMem m).ends = t.ends := rfl

@[simp] theorem inodes_setFile : (t.setFile f ff).inodes = update t.inodes f ff.inodeOf :=
  comp_update File.inodeOf t.file f ff

@[simp] theorem ends_setFile : (t.setFile f ff).ends = update t.ends f ff.endOf :=
  comp_update File.endOf t.file f ff

@[simp] theorem fd_setOfile : (t.setOfile p fdn o).fd = update t.fd (p, fdn) o := by
  funext z
  obtain ⟨q, k⟩ := z
  by_cases hq : q = p
  · subst hq
    by_cases hk : k = fdn
    · subst hk
      simp only [fd, setOfile, setProc, update_self]
    · rw [update_of_ne (fun hc => hk (Prod.mk.inj hc).2)]
      simp only [fd, setOfile, setProc, update_self, update_of_ne hk]
  · rw [update_of_ne (fun hc => hq (Prod.mk.inj hc).1)]
    simp only [fd, setOfile, setProc, update_of_ne hq]

@[simp] theorem cwds_setProc : (t.setProc p P).cwds = update t.cwds p P.cwd :=
  comp_update Proc.cwd t.proc p P

theorem cwds_setOfile : (t.setOfile p fdn o).cwds = t.cwds := by
  rw [setOfile, cwds_setProc]
  exact update_eq_self p t.cwds

theorem fd_setProc (h : P.ofile = (t.proc p).ofile) : (t.setProc p P).fd = t.fd :=
  funext fun z => congrFun (update_keeps Proc.ofile h z.1) z.2

theorem pipes_congr (h : t'.ends = t.ends) : t'.pipes = t.pipes := by
  unfold pipes
  rw [h]

theorem users_congr (hi : t'.inodes = t.inodes) (hc : t'.cwds = t.cwds) : t'.users = t.users := by
  unfold users
  rw [hi, hc]

end Projections

theorem mem_pipes_iff : pi ∈ t.pipes ↔ ∃ w, 0 < fiber t.ends (some (pi, w)) := by
  simp only [pipes, mem_ofPred_eq, Fiber.pos_iff]
  exact exists_comm

namespace Balanced

/-! ## Moving references -/

/-- A call has worked on inodes. -/
theorem setFs (h : Balanced L S x y t) (hf : fs.Holds t.users y') :
    Balanced L S x y' (t.setFs fs) := { h with held := hf }

/-- A call has written memory, but no pipe. -/
theorem setMem (h : Balanced L S x y t) (hi : m.Isolated L t.pipes)
    (hp : ∀ pi ∈ t.pipes, m.page pi = t.mem.page pi) (hfree : m.freelist = t.mem.freelist) :
    Balanced L S x y (t.setMem m) := by
  refine { h with isOpen := fun pi hpi w => ?_, isolated := hi, stock := ?_ }
  · show (m.page pi).isOpen w = _
    rw [hp pi hpi]
    exact h.isOpen pi hpi w
  · show m.free ∪ t.pipes = S
    rw [Phys.free, hfree]
    exact h.stock

theorem pagetable_setOfile (q : Slot) :
    ((t.setOfile p fdn o).proc q).pagetable = (t.proc q).pagetable :=
  update_keeps Proc.pagetable (by rfl) q

/-- The descriptors of a process have changed, and which references to files the call holds. -/
theorem of_fd (h : Balanced L S x y t)
    (hcount : ∀ g, fiber t.fd (some g) + x.count g =
      fiber (update t.fd (p, fdn) o) (some g) + x'.count g)
    (htyped : ∀ z f, update t.fd (p, fdn) o z = some f → (t.file f).type ≠ .none) :
    Balanced L S x' y (t.setOfile p fdn o) := by
  rw [← fd_setOfile] at hcount htyped
  refine { h with
    count := fun g => (h.count g).trans (hcount g), typed := htyped, held := ?_
    table := fun q => (pagetable_setOfile q).trans (h.table q) }
  have husers : (t.setOfile p fdn o).users = t.users := users_congr rfl cwds_setOfile
  rw [husers]
  exact h.held

/-- A reference that the call holds goes into a free descriptor. -/
theorem setOfile_some (h : Balanced L S (f :: x) y t) (hfree : t.fd (p, fdn) = none)
    (htype : (t.file f).type ≠ .none) : Balanced L S x y (t.setOfile p fdn (some f)) := by
  refine h.of_fd (fun g => ?_) fun z g hz => ?_
  · simp only [Fiber.update_some hfree, count_cons, beq_iff_eq]
    omega
  · rw [update_apply] at hz
    split_ifs at hz with hz'
    · exact some.inj hz ▸ htype
    · exact h.typed z g hz

/-- A reference is taken out of a descriptor. -/
theorem setOfile_none (h : Balanced L S x y t) (hfd : t.fd (p, fdn) = some f) :
    Balanced L S (f :: x) y (t.setOfile p fdn none) := by
  refine h.of_fd (fun g => ?_) fun z g hz => ?_
  · have hu := Fiber.update_none hfd g
    simp only [count_cons, beq_iff_eq]
    omega
  · rw [update_apply] at hz
    split_ifs at hz with hz'
    exact h.typed z g hz

/-! ## Entries of the file table -/

theorem inodes_setFile_of_eq (h : ff.inodeOf = (t.file f).inodeOf) :
    (t.setFile f ff).inodes = t.inodes := by
  rw [inodes_setFile, h]
  exact update_eq_self f t.inodes

theorem ends_setFile_of_eq (h : ff.endOf = (t.file f).endOf) : (t.setFile f ff).ends = t.ends := by
  rw [ends_setFile, h]
  exact update_eq_self f t.ends

/-- **An entry is written**, and the memory with the pages of pipes. -/
theorem setFileMem (h : Balanced L S x y t)
    (href : ff.ref = fiber t.fd (some f) + x'.count f) (hx : ∀ g ≠ f, x'.count g = x.count g)
    (hclosed : ff.ref = 0 → ff.type = .none) (htyped : ∀ z, t.fd z = some f → ff.type ≠ .none)
    (hnamed : ff.type ≠ .none → ff.inodeOf.isSome ∨ ff.endOf.isSome)
    (hheld : t.fs.Holds (t.setFile f ff).users y')
    (hone : ∀ e, fiber (t.setFile f ff).ends (some e) ≤ 1)
    (hopen : ∀ pi ∈ (t.setFile f ff).pipes, ∀ w,
      (m.page pi).isOpen w = fiber (t.setFile f ff).ends (some (pi, w)))
    (hiso : m.Isolated L (t.setFile f ff).pipes)
    (hstock : m.free ∪ (t.setFile f ff).pipes = S) :
    Balanced L S x' y' ((t.setFile f ff).setMem m) := by
  have hself : (t.setFile f ff).file f = ff := update_self ..
  have hother : ∀ g ≠ f, (t.setFile f ff).file g = t.file g := fun g hg =>
    update_of_ne hg ..
  have hcount : ∀ g, ((t.setFile f ff).file g).ref = fiber t.fd (some g) + x'.count g := by
    intro g
    by_cases hg : g = f
    · rw [hg, hself, href]
    · rw [hother g hg, hx g hg, h.count g]
  have hnone : ∀ g, ((t.setFile f ff).file g).ref = 0 →
      ((t.setFile f ff).file g).type = .none := by
    intro g
    by_cases hg : g = f
    · rw [hg, hself]
      exact hclosed
    · rw [hother g hg]
      exact h.closed g
  refine ⟨hcount, hnone, fun z g hz => ?_, fun g hg => ?_, hheld, hone, hopen, hiso, hstock,
    h.table⟩
  · show ((t.setFile f ff).file g).type ≠ .none
    by_cases hg : g = f
    · rw [hg, hself]
      exact htyped z (hg ▸ hz)
    · rw [hother g hg]
      exact h.typed z g hz
  · change ((t.setFile f ff).file g).type ≠ .none at hg
    show ((t.setFile f ff).file g).inodeOf.isSome ∨ ((t.setFile f ff).file g).endOf.isSome
    by_cases hgf : g = f
    · rw [hgf, hself] at hg ⊢
      exact hnamed hg
    · rw [hother g hgf] at hg ⊢
      exact h.named g hg

/-- An entry is written that refers to the same end of a pipe, or to none as before. -/
theorem setFile (h : Balanced L S x y t) (hend : ff.endOf = (t.file f).endOf)
    (href : ff.ref = fiber t.fd (some f) + x'.count f) (hx : ∀ g ≠ f, x'.count g = x.count g)
    (hclosed : ff.ref = 0 → ff.type = .none) (htyped : ∀ z, t.fd z = some f → ff.type ≠ .none)
    (hnamed : ff.type ≠ .none → ff.inodeOf.isSome ∨ ff.endOf.isSome)
    (hheld : t.fs.Holds (t.setFile f ff).users y') : Balanced L S x' y' (t.setFile f ff) := by
  have hends := ends_setFile_of_eq hend
  have hpipes := pipes_congr hends
  refine h.setFileMem href hx hclosed htyped hnamed hheld ?_ ?_ ?_ ?_
  · rw [hends]
    exact h.one
  · rw [hpipes, hends]
    exact h.isOpen
  · rw [hpipes]
    exact h.isolated
  · rw [hpipes]
    exact h.stock

/-- Only the reference count of an entry is written. -/
theorem setRef {n : ℕ} (h : Balanced L S x y t) (hn : n = fiber t.fd (some f) + x'.count f)
    (hx : ∀ g ≠ f, x'.count g = x.count g) (hclosed : n = 0 → (t.file f).type = .none) :
    Balanced L S x' y (t.setFile f { t.file f with ref := n }) := by
  refine h.setFile rfl hn hx hclosed (fun z hz => h.typed z f hz) (h.named f) ?_
  have hinodes : (t.setFile f { t.file f with ref := n }).inodes = t.inodes :=
    inodes_setFile_of_eq rfl
  rw [users_congr hinodes rfl]
  exact h.held

theorem count_cons_of_ne {a b : Fin NFILE} (h : b ≠ a) : (a :: x).count b = x.count b :=
  List.count_cons_of_ne h.symm

/-- `filealloc` finds an entry without references. -/
theorem filealloc (h : Balanced L S x y t) (ha : t.filealloc = some (t', f)) :
    Balanced L S (f :: x) y t' ∧ (t'.file f).type = .none ∧ f ∉ x ∧ t'.mem = t.mem ∧
      t'.proc = t.proc ∧ t'.fs = t.fs ∧ ∀ g ≠ f, t'.file g = t.file g := by
  obtain ⟨g, hg, he⟩ := map_eq_some_iff.mp ha
  obtain ⟨rfl, rfl⟩ := Prod.mk.inj he
  have hfound := find?_some hg
  have hfree : (t.file g).ref = 0 := of_decide_eq_true hfound
  have hcount := h.count g
  rw [hfree] at hcount
  have hx : x.count g = 0 := by omega
  refine ⟨h.setRef ?_ (fun _ => count_cons_of_ne) nofun, ?_, count_eq_zero.mp hx, rfl, rfl,
    rfl, fun _ hne => update_of_ne hne ..⟩
  · rw [count_cons_self]
    omega
  · show (update t.file g _ g).type = _
    rw [update_self]
    exact h.closed g hfree

/-- `filedup` takes a reference. -/
theorem filedup (h : Balanced L S x y t) (f : Fin NFILE) :
    Ensures MemFault (fun t' => Balanced L S (f :: x) y t' ∧ t'.proc = t.proc ∧
      (t'.file f).type = (t.file f).type) (t.filedup f) := by
  unfold State.filedup
  split
  · nofun
  · refine ⟨h.setRef ?_ (fun _ => count_cons_of_ne) nofun, rfl, ?_⟩
    · rw [count_cons_self, h.count f, add_assoc]
    · simp only [State.setFile, update_self]

/-- An entry that has been allocated is set up for an inode. -/
theorem setFile_inode (h : Balanced L S (f :: x) (i :: y) t) (htype : (t.file f).type = .none)
    (href : ff.ref = (t.file f).ref) (hi : ff.inodeOf = some i)
    (hend : ff.endOf = none) : Balanced L S (f :: x) y (t.setFile f ff) := by
  have hold : t.inodes f = none := by
    rw [inodes, File.inodeOf, htype, if_neg (by decide)]
  refine h.setFile ?_ (href.trans (h.count f)) (fun _ _ => rfl) (fun h0 => ?_) (fun z hz => ?_)
    (fun _ => .inl (by rw [hi]; rfl)) (h.held.recount (fun j => ?_))
  · rw [hend, File.endOf, htype, if_neg (by decide)]
  · rw [href, h.count f, count_cons_self] at h0
    omega
  · exact absurd htype (h.typed z f hz)
  · unfold users
    rw [inodes_setFile, hi, Fiber.update_some hold, count_cons]
    simp only [beq_iff_eq, cwds_setFile]
    omega

/-! ## Closing -/

/-- The last reference to a file is given up. -/
theorem last (h : Balanced L S (f :: x) y t) (hf : (t.file f).ref = 1) :
    fiber t.fd (some f) = 0 ∧ x.count f = 0 := by
  have hcount := h.count f
  rw [hf, count_cons_self] at hcount
  omega

/-- The entry of a file that has been closed. -/
abbrev shut (t : State) (f : Fin NFILE) : State :=
  t.setFile f { t.file f with ref := 0, type := .none }

theorem ends_shut : (shut t f).ends = update t.ends f none := ends_setFile

theorem inodes_shut : (shut t f).inodes = update t.inodes f none := inodes_setFile

/-- Closing a file that is no end of a pipe. -/
theorem shut_of_not_pipe (h : Balanced L S (f :: x) y t) (hf : (t.file f).ref = 1)
    (hend : t.ends f = none) (hheld : t.fs.Holds (shut t f).users y') :
    Balanced L S x y' (shut t f) := by
  obtain ⟨hfd, hx⟩ := h.last hf
  refine h.setFile hend.symm (by rw [hfd, hx]) (fun g hg => (count_cons_of_ne hg).symm)
    (fun _ => rfl) (fun z hz => ?_) nofun hheld
  exact absurd hz (Fiber.eq_zero_iff.mp hfd z)

/-- The end of a pipe that is closed was the only one of its kind. -/
theorem fiber_shut (h : Balanced L S x y t) (hend : t.ends f = some (pi, w)) (e : ℕ × Bool) :
    fiber (shut t f).ends (some e) = if e = (pi, w) then 0 else fiber t.ends (some e) := by
  have hu := Fiber.update_none hend e
  have hone := h.one e
  rw [ends_shut]
  by_cases he : e = (pi, w)
  · rw [if_pos he.symm] at hu
    rw [if_pos he]
    omega
  · rw [if_neg (fun hc => he hc.symm)] at hu
    rw [if_neg he]
    omega

theorem one_shut (h : Balanced L S x y t) (hend : t.ends f = some (pi, w)) (e : ℕ × Bool) :
    fiber (shut t f).ends (some e) ≤ 1 := by
  rw [h.fiber_shut hend e]
  split
  · exact Nat.zero_le _
  · exact h.one e

theorem mem_pipes (hend : t.ends f = some (pi, w)) : pi ∈ t.pipes := ⟨f, w, hend⟩

/-- The kernel owns the pages of pipes. -/
theorem pipe_inRange (h : Balanced L S x y t) (hpi : pi ∈ t.pipes) :
    t.mem.InRange pi ∧ pi ∉ t.mem.freelist :=
  ⟨h.isolated.range .kernel pi hpi, h.isolated.kernel_not_free hpi⟩

theorem pipes_shut_subset : (shut t f).pipes ⊆ t.pipes := by
  rintro pi ⟨g, w, hg⟩
  rw [ends_shut] at hg
  rw [update_apply] at hg
  split_ifs at hg with hgf
  exact ⟨g, w, hg⟩

/-- An end of a pipe is closed, if its page says so afterwards or is gone. -/
theorem shut_end (h : Balanced L S (f :: x) y t) (hf : (t.file f).ref = 1)
    (hend : t.ends f = some (pi, w)) (hpage : ∀ pi' ≠ pi, m.page pi' = t.mem.page pi')
    (hself : pi ∈ (shut t f).pipes →
      ∀ w', (m.page pi).isOpen w' = fiber (shut t f).ends (some (pi, w')))
    (hiso : m.Isolated L (shut t f).pipes) (hstock : m.free ∪ (shut t f).pipes = S) :
    Balanced L S x y ((shut t f).setMem m) := by
  obtain ⟨hfd, hx⟩ := h.last hf
  have htype : (t.file f).type = .pipe := by
    by_contra hc
    rw [ends, File.endOf, if_neg hc] at hend
    cases hend
  have hinodes : (shut t f).inodes = t.inodes := by
    refine inodes_setFile_of_eq ?_
    rw [File.inodeOf, File.inodeOf, htype]
    rfl
  have hfiber := h.fiber_shut hend
  refine h.setFileMem (by rw [hfd, hx]) (fun g hg => (count_cons_of_ne hg).symm) (fun _ => rfl)
    (fun z hz => absurd hz (Fiber.eq_zero_iff.mp hfd z)) nofun ?_
    (h.one_shut hend) ?_ hiso hstock
  · rw [users_congr hinodes rfl]
    exact h.held
  · intro pi' hpi'
    by_cases hne : pi' = pi
    · rw [hne] at hpi' ⊢
      exact hself hpi'
    · intro w'
      rw [hpage pi' hne, hfiber, if_neg (fun hc => hne (Prod.mk.inj hc).1)]
      exact h.isOpen pi' (pipes_shut_subset hpi') w'

/-- What `pipeclose` writes: which ends are open from now on. -/
theorem setEnds_shut (h : Balanced L S x y t) (hend : t.ends f = some (pi, w)) :
    ∃ P : Page, (if w then (t.mem.page pi).setEnds (t.mem.page pi).readopen 0
        else (t.mem.page pi).setEnds 0 (t.mem.page pi).writeopen) = P ∧
      ∀ w', P.isOpen w' = fiber (shut t f).ends (some (pi, w')) := by
  have hopen := h.isOpen pi (mem_pipes hend)
  refine ⟨_, rfl, fun w' => ?_⟩
  rw [h.fiber_shut hend, ← hopen]
  have hle : ∀ w', (t.mem.page pi).isOpen w' ≤ 1 := fun w' => (hopen w').trans_le (h.one _)
  cases w with
  | false =>
    rw [if_neg (by decide)]
    refine (Page.isOpen_setEnds _ (Nat.zero_le 1) (hle true) w').trans ?_
    cases w' <;> simp [Page.isOpen]
  | true =>
    rw [if_pos rfl]
    refine (Page.isOpen_setEnds _ (hle false) (Nat.zero_le 1) w').trans ?_
    cases w' <;> simp [Page.isOpen]

/-- The other pipes have the ends that they had. -/
theorem pipes_subset_shut (hend : t.ends f = some (pi, w)) :
    t.pipes ⊆ insert pi (shut t f).pipes := by
  rintro pi' ⟨g, w', hg⟩
  by_cases hgf : g = f
  · rw [hgf, hend] at hg
    exact .inl (Prod.mk.inj (some.inj hg)).1.symm
  · refine .inr ⟨g, w', ?_⟩
    rw [ends_shut, update_of_ne hgf]
    exact hg

/-- **`pipeclose` frees the page with the second end.** -/
theorem pipeclose (h : Balanced L S (f :: x) y t) (hf : (t.file f).ref = 1)
    (hend : t.ends f = some (pi, w)) :
    ∃ t', (shut t f).pipeclose pi w = .ok t' ∧ Balanced L S x y t' ∧ t'.proc = t.proc := by
  have hpi : pi ∈ t.pipes := mem_pipes hend
  obtain ⟨hrange, hfree⟩ := h.pipe_inRange hpi
  obtain ⟨P, hP, hends⟩ := h.setEnds_shut hend
  have hwithin : Within t.mem (t.mem.setPage pi P) {pi} := within_setPage (mem_singleton pi) P
  have hsub : ({pi} : Set ℕ) ⊆ t.mem.free ∪ t.pipes :=
    singleton_subset_iff.mpr (.inr hpi)
  have hold := h.isolated.pool
  have hpool : (t.mem.setPage pi P).Pool t.mem.free :=
    ⟨hold.nodup, hold.mem, hold.range⟩
  have hdis : Disjoint t.mem.free (shut t f).pipes :=
    disjoint_left.mpr (fun z hz hz' => (h.pipe_inRange (pipes_shut_subset hz')).2 hz)
  have hkernel : (shut t f).pipes ⊆ t.mem.free ∪ t.pipes :=
    pipes_shut_subset.trans subset_union_right
  have hmem : (shut t f).mem = t.mem := rfl
  have hopen : pi ∈ (shut t f).pipes ↔ ¬ (P.readopen = 0 ∧ P.writeopen = 0) := by
    rw [mem_pipes_iff, Bool.exists_bool, ← hends, ← hends, Page.isOpen, Page.isOpen]
    simp only [Bool.false_eq_true, if_false, if_true]
    omega
  unfold State.pipeclose
  dsimp only
  rw [hmem, hP]
  by_cases hzero : P.readopen = 0 ∧ P.writeopen = 0
  · have hgone : pi ∉ (shut t f).pipes := fun hc => hopen.mp hc hzero
    have hw' := hwithin.trans (within_kfreed (mem_singleton pi))
    have hpool' := hpool.kfree hrange hfree
    refine ⟨(shut t f).setMem ((t.mem.setPage pi P).kfreed pi), ?_, ?_, rfl⟩
    · rw [if_pos hzero, kfree_of_inRange (hwithin.inRange.mpr hrange), ok_bind]
    refine h.shut_end hf hend hw'.page (fun hc => absurd hc hgone)
      (h.isolated.kernel hpool' (hw'.mono hsub) ?_ hkernel ?_) ?_
    · exact insert_subset (.inr hpi) subset_union_left
    · exact disjoint_insert_left.mpr ⟨hgone, hdis⟩
    · rw [← h.stock]
      ext z
      have hz := @pipes_subset_shut t f pi w hend z
      have hz' := @pipes_shut_subset t f z
      simp only [freelist_kfreed, setPage_freelist, mem_cons, mem_union, mem_ofPred_eq]
      constructor
      · rintro ((rfl | hm) | hm)
        · exact .inr hpi
        · exact .inl hm
        · exact .inr (hz' hm)
      · rintro (hm | hm)
        · exact .inl (.inr hm)
        · rcases hz hm with rfl | hm
          · exact .inl (.inl rfl)
          · exact .inr hm
  · refine ⟨(shut t f).setMem (t.mem.setPage pi P), if_neg hzero, ?_, rfl⟩
    refine h.shut_end hf hend hwithin.page (fun _ => ?_)
      (h.isolated.kernel hpool (hwithin.mono hsub) subset_union_left hkernel hdis) ?_
    · have hpg : (t.mem.setPage pi P).page pi = P := update_self ..
      rwa [hpg]
    · rw [← h.stock]
      have hsame : (shut t f).pipes = t.pipes := by
        refine pipes_shut_subset.antisymm ((pipes_subset_shut hend).trans ?_)
        exact insert_subset (hopen.mpr hzero) (subset_refl _)
      rw [hsame]
      rfl

/-- The processes are in `R`, and the references are balanced. -/
abbrev Leaves (L : Slot → Option Home) (S : Set ℕ) (x : List (Fin NFILE))
    (y : List (Fin NINODE)) (R : (Slot → Proc) → Prop) (t : State) : Prop :=
  Balanced L S x y t ∧ R t.proc

/-- The rule for `inOp`. -/
theorem inOp {α : Type} {g : State → Except Fault (State × α)} {R : (Slot → Proc) → Prop}
    (h : Balanced L S x y t) (hg : ∀ fs, Balanced L S x y (t.setFs fs) →
      Ensures MemFault (fun r => Leaves L S x' y' R r.1) (g (t.setFs fs))) :
    Ensures MemFault (fun r => Leaves L S x' y' R r.1) (t.inOp g) := by
  refine h.held.beginOp.bind fun fs hfs => (hg fs (h.setFs hfs)).bind ?_
  rintro ⟨_, _⟩ ⟨h₁, hR⟩
  exact h₁.held.endOp.bind fun fs₁ hfs₁ => ⟨h₁.setFs hfs₁, hR⟩

/-- `iput` gives up a reference to an inode. -/
theorem iput (h : Balanced L S x (i :: y) t) : Balanced L S x y (t.setFs (t.fs.iput i)) :=
  h.setFs h.held.iput

section

variable (h : Balanced L S (f :: x) y t)
include h

/-- A file that is closed leaves its reference to the inode. -/
theorem shut_inode (hf : (t.file f).ref = 1) (hend : t.ends f = none) (hi : t.inodes f = some i) :
    Balanced L S x (i :: y) (shut t f) := by
  refine h.shut_of_not_pipe hf hend (h.held.recount (fun j => ?_))
  have hu := Fiber.update_none hi j
  unfold users
  rw [inodes_shut, count_cons]
  simp only [beq_iff_eq, cwds_setFile]
  omega

/-- Closing the last reference to an end of a pipe. -/
theorem fileclose_pipe (hf : (t.file f).ref = 1) (htype : (t.file f).type = .pipe) :
    ∃ t', t.fileclose f = .ok t' ∧ Leaves L S x y (· = t.proc) t' := by
  cases hpipe : (t.file f).pipe with
  | none =>
    have hnamed := h.named f (by rw [htype]; nofun)
    rw [inodes, ends, File.inodeOf, File.endOf, htype, hpipe, if_neg (by decide), if_pos rfl,
      map_none] at hnamed
    exact absurd hnamed (by decide)
  | some pi =>
    have hend : t.ends f = some (pi, (t.file f).writable) := by
      rw [ends, File.endOf, if_pos htype, hpipe, map_some]
    obtain ⟨t', ht', hb, hp⟩ := h.pipeclose hf hend
    refine ⟨t', ?_, hb, hp⟩
    rw [← ht', State.fileclose, if_neg (by omega), if_neg (by omega), if_pos htype]
    simp only [shut, hpipe]

/-- **`fileclose` gives up a reference to a file**, and with the last one what the file
refers to. -/
theorem fileclose : Ensures MemFault (Leaves L S x y (· = t.proc)) (t.fileclose f) := by
  have hcount := h.count f
  rw [count_cons_self] at hcount
  by_cases hpipe : (t.file f).ref = 1 ∧ (t.file f).type = .pipe
  · exact Ensures.of_exists (h.fileclose_pipe hpipe.1 hpipe.2)
  unfold State.fileclose
  dsimp only
  split_ifs with h0 hmore htype htype'
  · nofun
  · refine ⟨h.setRef ?_ (fun g hg => (count_cons_of_ne hg).symm) (fun hc => absurd hc ?_), rfl⟩
    · omega
    · omega
  · exact absurd ⟨by omega, htype⟩ hpipe
  · have href : (t.file f).ref = 1 := by omega
    have hend : t.ends f = none := by rw [ends, File.endOf, if_neg htype]
    have hinode : t.inodes f = (t.file f).ip := by rw [inodes, File.inodeOf, if_pos htype']
    cases hip : (t.file f).ip with
    | none =>
      have hnamed := h.named f (fun hc => by rw [hc] at htype'; exact absurd htype' (by decide))
      rw [hinode, hip, hend] at hnamed
      exact absurd hnamed (by decide)
    | some =>
      rw [← hip]
      refine Ensures.bind (Q := fun r => Leaves L S x y (· = t.proc) r.1)
        ((h.shut_inode href hend (hinode.trans hip)).inOp ?_) ?_
      · intro fs h₁
        rw [hip]
        exact ⟨h₁.iput, rfl⟩
      · rintro ⟨t₁, _⟩ h₁
        exact h₁
  · have href : (t.file f).ref = 1 := by omega
    have hend : t.ends f = none := by rw [ends, File.endOf, if_neg htype]
    have hi : t.inodes f = none := by rw [inodes, File.inodeOf, if_neg htype']
    refine ⟨h.shut_of_not_pipe href hend ?_, rfl⟩
    have hinodes : (shut t f).inodes = t.inodes := by
      rw [inodes_shut, ← hi]
      exact update_eq_self f t.inodes
    rw [users_congr hinodes rfl]
    exact h.held

end

/-! ## Pipes -/

theorem pipes_setFile_end (hold : t.ends f = none) (hend : ff.endOf = some (pi, w)) :
    (t.setFile f ff).pipes = insert pi t.pipes := by
  ext pi'
  rw [mem_pipes_iff, mem_insert_iff, mem_pipes_iff, ends_setFile, hend]
  simp only [Fiber.update_some hold]
  constructor
  · rintro ⟨w', hw'⟩
    by_cases he : (pi, w) = (pi', w')
    · exact .inl (Prod.mk.inj he).1.symm
    · rw [if_neg he] at hw'
      exact .inr ⟨w', hw'⟩
  · rintro (rfl | ⟨w', hw'⟩)
    · exact ⟨w, by rw [if_pos rfl]; omega⟩
    · exact ⟨w', by omega⟩

/-- **An entry that has been allocated becomes an end of a pipe.** The page of the pipe says
so, and the other pipes are as they were. -/
theorem setFile_end (ff : File) (h : Balanced L S (f :: x) y t) (htype : (t.file f).type = .none)
    (href : ff.ref = (t.file f).ref) (hend : ff.endOf = some (pi, w))
    (hnew : fiber t.ends (some (pi, w)) = 0) (hpage : ∀ pi' ≠ pi, m.page pi' = t.mem.page pi')
    (hopen : ∀ w', (m.page pi).isOpen w' =
      fiber t.ends (some (pi, w')) + if w = w' then 1 else 0)
    (hiso : m.Isolated L (insert pi t.pipes))
    (hstock : m.free ∪ insert pi t.pipes = S) :
    Balanced L S (f :: x) y ((t.setFile f ff).setMem m) := by
  have hold : t.ends f = none := by rw [ends, File.endOf, htype, if_neg (by decide)]
  have hpipe : ff.type = .pipe := by
    by_contra hc
    rw [File.endOf, if_neg hc] at hend
    cases hend
  have hinodes : (t.setFile f ff).inodes = t.inodes := by
    refine inodes_setFile_of_eq ?_
    rw [File.inodeOf, File.inodeOf, htype, hpipe]
    rfl
  have hpipes := pipes_setFile_end hold hend
  have hfiber : ∀ e, fiber (t.setFile f ff).ends (some e) =
      fiber t.ends (some e) + if (pi, w) = e then 1 else 0 := by
    intro e
    rw [ends_setFile, hend, Fiber.update_some hold]
  refine h.setFileMem (href.trans (h.count f)) (fun _ _ => rfl) (fun h0 => ?_)
    (fun z hz => absurd htype (h.typed z f hz)) (fun _ => .inr (by rw [hend]; rfl)) ?_
    (fun e => ?_) (fun pi' hpi' w' => ?_) (hpipes ▸ hiso) (hpipes ▸ hstock)
  · rw [href, h.count f, count_cons_self] at h0
    omega
  · rw [users_congr hinodes rfl]
    exact h.held
  · rw [hfiber e]
    split_ifs with he
    · rw [← he, hnew]
    · exact h.one e
  · rw [hfiber]
    by_cases hne : pi' = pi
    · simp only [hne, hopen, Prod.mk.injEq, true_and]
    · rw [hpipes] at hpi'
      rw [hpage pi' hne, if_neg (fun hc => hne (Prod.mk.inj hc).1.symm)]
      exact h.isOpen pi' (hpi'.resolve_left hne) w'

end Balanced

end State

end Sysfile

end Xv6
