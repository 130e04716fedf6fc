import Mathlib.Data.Fintype.Card
import OsProject.Bcache
import OsProject.Pool

/-!
# The buffers of the cache

What holds of the cache whatever the processes do with the contents: the list goes through
every buffer once, a block of `ROOTDEV` has at most one buffer, and `refcnt` is the number of
those who refer to a buffer (`State.users`). The log is one of them: it has a pin on the
buffer of each block that `install_trans` has still to write to its home location.

What a step can do is said once (`Step`). Most steps concern one buffer and do not change the
block that it is for, and one rule is for them (`Inv.buf_step`), also when the block enters or
leaves the log (`Inv.move_step`). The exception is `bget` when it recycles a buffer that nobody
refers to (`Inv.rekey`).
-/

namespace Xv6.Bcache

open State List Pc Option

open Function (forall_update_iff update update_eq_self update_idem update_of_ne update_self)

open Journal (Config)

/-! ## Processes -/

namespace Pc

/-- The buffer that a process is at. -/
def about : Pc → Option (Fin NBUF)
  | idle => none
  | waiting k | reading k | releasing k | copied k | written k => some k

/-- At buffer `k`, or at none. -/
def At (k : Fin NBUF) (x : Pc) : Prop := x.about = none ∨ x.about = some k

/-- Counted in `refcnt`, without the lock. -/
def wants (k : Fin NBUF) : Pc → Bool
  | waiting j | releasing j => decide (j = k)
  | _ => false

/-- In a function, with the lock. -/
def owns (k : Fin NBUF) : Pc → Bool
  | reading j | copied j | written j => decide (j = k)
  | _ => false

variable {x : Pc} {k : Fin NBUF}

theorem At.about_ne (h : x.At k) {j : Fin NBUF} (hj : j ≠ k) : x.about ≠ some j := by
  rcases h with h | h <;> rw [h]
  · exact nofun
  · exact fun he => hj (some.inj he).symm

theorem wants_of_about (h : x.about ≠ some k) : x.wants k = false := by
  cases x with
  | waiting | releasing => exact decide_eq_false (fun he => h (congrArg some he))
  | _ => rfl

theorem owns_of_about (h : x.about ≠ some k) : x.owns k = false := by
  cases x with
  | reading | copied | written => exact decide_eq_false (fun he => h (congrArg some he))
  | _ => rfl

end Pc

variable {β : Type}

/-! ## The invariant -/

/-- What holds of a buffer and the processes `pc`. -/
structure BufOk (k : Fin NBUF) (b : Buf β) (pc : ℕ → Pc) : Prop where
  owns : ∀ p, (pc p).owns k = true → b.lock = some p
  valid : ∀ p, b.lock = some p → pc p ≠ .reading k → b.valid = true
  dev : 0 < b.refcnt → b.dev = ROOTDEV

namespace State

/-- The blocks in the log that have not been installed yet. -/
def pending (s : State β) : List ℕ := s.lh.drop (s.tail.getD 0)

/-- Whether the log has a pin on a buffer. -/
def pinned (s : State β) (k : Fin NBUF) : Bool :=
  decide ((s.buf k).dev = ROOTDEV ∧ (s.buf k).blockno ∈ s.pending)

/-- **Who refers to a buffer**: the processes that wait for it or are about to give it up,
the one that has the lock, and pins. -/
def users (s : State β) (k : Fin NBUF) : ℕ :=
  s.procs.countP (wants k) + (s.buf k).lock.isSome.toNat + s.pins k + (s.pinned k).toNat

end State

/-- **What holds between steps**, whatever the processes write. -/
structure Inv (s : State β) : Prop where
  circle : ∃ l, s.links.Circle l ∧ ∀ k, k ∈ l
  unique : ∀ j k, (s.buf j).dev = ROOTDEV → (s.buf k).dev = ROOTDEV →
    (s.buf j).blockno = (s.buf k).blockno → j = k
  count : ∀ k, (s.buf k).refcnt = s.users k
  buf : ∀ k, BufOk k (s.buf k) s.pc
  nodup : s.lh.Nodup
  cached : ∀ b ∈ s.pending, ∃ k, (s.buf k).dev = ROOTDEV ∧ (s.buf k).blockno = b
  install : ∀ p k, s.pc p = .copied k ∨ s.pc p = .written k →
    ∃ t, s.tail = some t ∧ s.lh[t]? = some (s.buf k).blockno

/-- A buffer that is in use is not recycled. -/
def Keeps (s s' : State β) : Prop :=
  ∀ k, 0 < (s.buf k).refcnt →
    (s'.buf k).dev = (s.buf k).dev ∧ (s'.buf k).blockno = (s.buf k).blockno

/-! ## Steps at one buffer -/

section step

variable {s s' : State β} {p : ℕ} {x y : Pc} {k : Fin NBUF} {b : Buf β} {n : ℕ}

theorem State.pc_eq_update (hp : p < s.procs.length) (h : s'.procs = s.procs.set p y) :
    s'.pc = update s.pc p y := by
  unfold pc
  rw [h, Pool.getD_set hp]

theorem State.setPc_self (hp : p < s.procs.length) (h : s.pc p = y) : s.setPc p y = s := by
  unfold setPc
  rw [Pool.set_self hp h]

theorem State.countP_eq (hp : p < s.procs.length) (h : s'.procs = s.procs.set p y) (f : Pc → Bool) :
    s'.procs.countP f + (f (s.pc p)).toNat = s.procs.countP f + (f y).toNat := by
  rw [h]
  exact Pool.countP_set hp f

/-- What has to be shown of a buffer when a process goes on. -/
theorem BufOk.of_update {pc : ℕ → Pc} (hy : y.owns k = true → b.lock = some p)
    (hvy : b.lock = some p → y ≠ .reading k → b.valid = true)
    (howns : ∀ q, q ≠ p → (pc q).owns k = true → b.lock = some q)
    (hvalid : ∀ q, q ≠ p → b.lock = some q → pc q ≠ .reading k → b.valid = true)
    (hd : 0 < b.refcnt → b.dev = ROOTDEV) : BufOk k b (update pc p y) :=
  ⟨(forall_update_iff pc fun q z => z.owns k = true → b.lock = some q).mpr ⟨hy, howns⟩,
    (forall_update_iff pc fun q z => b.lock = some q → z ≠ .reading k → b.valid = true).mpr
      ⟨hvy, hvalid⟩, hd⟩

theorem BufOk.frame {pc : ℕ → Pc} (h : BufOk k b pc) (hx : (pc p).about ≠ some k)
    (hy : y.about ≠ some k) : BufOk k b (update pc p y) := by
  refine .of_update (fun hc => ?_) (fun hl _ => h.valid p hl fun he => ?_) (fun q _ => h.owns q)
    (fun q _ => h.valid q) h.dev
  · rw [owns_of_about hy] at hc
    cases hc
  · rw [he] at hx
    exact hx rfl

theorem State.buf_setBuf_self (s : State β) (k : Fin NBUF) (b : Buf β) :
    (s.setBuf k b).buf k = b := update_self ..

theorem State.buf_setBuf_of_ne (s : State β) {j k : Fin NBUF} (b : Buf β) (h : j ≠ k) :
    (s.setBuf k b).buf j = s.buf j := update_of_ne h _ _

theorem State.setBuf_setBuf (s : State β) (k : Fin NBUF) (b b' : Buf β) :
    (s.setBuf k b).setBuf k b' = s.setBuf k b' := by
  show { s with buf := update (update s.buf k b) k b' } = _
  rw [update_idem]
  rfl

/-- A process is somewhere else, and a buffer and its pins have changed, but not the block
that it is for. -/
structure Move (s s' : State β) (p : ℕ) (y : Pc) (k : Fin NBUF) (b : Buf β) (n : ℕ) : Prop where
  procs : s'.procs = s.procs.set p y
  buf : s'.buf = update s.buf k b
  pins : s'.pins = update s.pins k n
  key : b.dev = (s.buf k).dev ∧ b.blockno = (s.buf k).blockno

/-- The log is as it was. -/
structure Change (s s' : State β) (p : ℕ) (y : Pc) (k : Fin NBUF) (b : Buf β) (n : ℕ) : Prop
    extends Move s s' p y k b n where
  lh : s'.lh = s.lh
  tail : s'.tail = s.tail

namespace Move

variable (M : Move s s' p y k b n)
include M

theorem buf_self : s'.buf k = b := by
  rw [M.buf, update_self]

theorem buf_of_ne {j : Fin NBUF} (hj : j ≠ k) : s'.buf j = s.buf j := by
  rw [M.buf, update_of_ne hj]

theorem key_eq (j : Fin NBUF) :
    (s'.buf j).dev = (s.buf j).dev ∧ (s'.buf j).blockno = (s.buf j).blockno := by
  by_cases hj : j = k
  · rw [hj, M.buf_self]
    exact M.key
  · rw [M.buf_of_ne hj]
    exact ⟨rfl, rfl⟩

end Move

theorem Change.pending (C : Change s s' p y k b n) : s'.pending = s.pending := by
  rw [State.pending, C.lh, C.tail]
  rfl

theorem Change.pinned (C : Change s s' p y k b n) (j : Fin NBUF) : s'.pinned j = s.pinned j := by
  rw [State.pinned, (C.key_eq j).1, (C.key_eq j).2, C.pending]
  rfl

/-- The section of `brelse` under `bcache.lock`. -/
theorem Change.brelse : Change s (s.brelse p k) p .idle k
    { s.buf k with refcnt := (s.buf k).refcnt - 1 } (s.pins k) := by
  unfold State.brelse
  split <;> exact ⟨⟨rfl, rfl, (update_eq_self ..).symm, rfl, rfl⟩, rfl, rfl⟩

theorem Change.bpin (hp : p < s.procs.length) (hx : s.pc p = .idle) :
    Change s { s.bpin k with pins := update s.pins k (s.pins k + 1) } p .idle k
      { s.buf k with refcnt := (s.buf k).refcnt + 1 } (s.pins k + 1) :=
  ⟨⟨(Pool.set_self hp hx).symm, rfl, rfl, rfl, rfl⟩, rfl, rfl⟩

theorem Change.bunpin (hp : p < s.procs.length) (hx : s.pc p = .idle) :
    Change s { s.bunpin k with pins := update s.pins k (s.pins k - 1) } p .idle k
      { s.buf k with refcnt := (s.buf k).refcnt - 1 } (s.pins k - 1) :=
  ⟨⟨(Pool.set_self hp hx).symm, rfl, rfl, rfl, rfl⟩, rfl, rfl⟩

theorem keeps_of_buf (h : s'.buf = update s.buf k b)
    (hk : b.dev = (s.buf k).dev ∧ b.blockno = (s.buf k).blockno) : Keeps s s' := by
  intro j _
  by_cases hj : j = k
  · rw [hj, h, update_self]
    exact hk
  · rw [h, update_of_ne hj]
    exact ⟨rfl, rfl⟩

/-- **The rule for a step at one buffer**, whose block may enter or leave the log. -/
theorem Inv.move_step (I : Inv s) (hp : p < s.procs.length) (M : Move s s' p y k b n)
    (hcircle : ∃ l, s'.links.Circle l ∧ ∀ k, k ∈ l) (hpx : s.pc p = x) (hx : x.At k) (hy : y.At k)
    (hd : (s.buf k).dev = ROOTDEV)
    (hmem : ∀ c, c ≠ (s.buf k).blockno → (c ∈ s'.pending ↔ c ∈ s.pending))
    (hcount : b.refcnt + (x.wants k).toNat + (s.buf k).lock.isSome.toNat + s.pins k +
      (decide ((s.buf k).blockno ∈ s.pending)).toNat = (s.buf k).refcnt + (y.wants k).toNat +
      b.lock.isSome.toNat + n + (decide ((s.buf k).blockno ∈ s'.pending)).toNat)
    (hok : BufOk k b (update s.pc p y)) (hnodup : s'.lh.Nodup)
    (hinst : ∀ q j, update s.pc p y q = .copied j ∨ update s.pc p y q = .written j →
      ∃ t, s'.tail = some t ∧ s'.lh[t]? = some (s.buf j).blockno) : Inv s' := by
  have hpc := pc_eq_update hp M.procs
  subst hpx
  refine ⟨hcircle, fun i j hi hj hij => ?_, fun j => ?_, fun j => ?_, hnodup, fun c hc => ?_,
    fun q j hq => ?_⟩
  · rw [(M.key_eq i).1] at hi
    rw [(M.key_eq j).1] at hj
    rw [(M.key_eq i).2, (M.key_eq j).2] at hij
    exact I.unique i j hi hj hij
  · have hc := countP_eq hp M.procs (wants j)
    have hold := I.count j
    unfold users at hold ⊢
    by_cases hj : j = k
    · subst hj
      simp only [pinned, (M.key_eq j).1, (M.key_eq j).2, hd, true_and] at hold ⊢
      rw [M.buf_self, M.pins, update_self]
      omega
    · have hpin : s'.pinned j = s.pinned j := by
        rw [pinned, pinned, M.buf_of_ne hj, decide_eq_decide]
        exact and_congr_right fun hdj => hmem _ fun he => hj (I.unique j k hdj hd he)
      rw [wants_of_about (hx.about_ne hj), wants_of_about (hy.about_ne hj)] at hc
      rw [hpin, M.buf_of_ne hj, M.pins, update_of_ne hj]
      omega
  · rw [hpc]
    by_cases hj : j = k
    · subst hj
      rw [M.buf_self]
      exact hok
    · rw [M.buf_of_ne hj]
      exact (I.buf j).frame (hx.about_ne hj) (hy.about_ne hj)
  · by_cases hck : c = (s.buf k).blockno
    · exact ⟨k, (M.key_eq k).1.trans hd, (M.key_eq k).2.trans hck.symm⟩
    · obtain ⟨j, hdj, hb⟩ := I.cached c ((hmem c hck).mp hc)
      exact ⟨j, (M.key_eq j).1.trans hdj, (M.key_eq j).2.trans hb⟩
  · rw [hpc] at hq
    rw [(M.key_eq j).2]
    exact hinst q j hq

/-- The log is as it was. -/
theorem Inv.buf_step (I : Inv s) (hp : p < s.procs.length) (C : Change s s' p y k b n)
    (hcircle : ∃ l, s'.links.Circle l ∧ ∀ k, k ∈ l) (hpx : s.pc p = x) (hx : x.At k) (hy : y.At k)
    (hd : (s.buf k).dev = ROOTDEV)
    (hcount : b.refcnt + (x.wants k).toNat + (s.buf k).lock.isSome.toNat + s.pins k =
      (s.buf k).refcnt + (y.wants k).toNat + b.lock.isSome.toNat + n)
    (hok : BufOk k b (update s.pc p y)) (hinst : y = .copied k ∨ y = .written k →
      ∃ t, s.tail = some t ∧ s.lh[t]? = some (s.buf k).blockno) : Inv s' := by
  refine I.move_step hp C.toMove hcircle hpx hx hy hd (fun c _ => by rw [C.pending]) ?_ hok
    (by rw [C.lh]; exact I.nodup) fun q j hq => ?_
  · rw [C.pending]
    omega
  · rw [C.tail, C.lh]
    by_cases hqp : q = p
    · rw [hqp, update_self] at hq
      have hj : j = k := by
        by_contra hne
        rcases hq with rfl | rfl <;> exact hy.about_ne hne rfl
      subst hj
      exact hinst hq
    · rw [update_of_ne hqp] at hq
      exact I.install q j hq

end step

/-! ## One buffer -/

section buf

variable {k : Fin NBUF} {b b' : Buf β} {pc : ℕ → Pc} {p : ℕ} {y : Pc}

variable (h : BufOk k b pc)
include h

/-- A process without the lock goes on without it. -/
theorem BufOk.move (hx : (pc p).owns k = false) (hy : y.owns k = false) (hl : b'.lock = b.lock)
    (hv : b'.valid = b.valid) (hd : b'.dev = ROOTDEV) : BufOk k b' (update pc p y) := by
  refine .of_update (fun hc => absurd (hy.symm.trans hc) nofun) (fun hlock _ => ?_)
    (fun q _ hq => hl.trans (h.owns q hq))
    (fun q _ hlock hq => hv.trans (h.valid q (hl.symm.trans hlock) hq)) (fun _ => hd)
  refine hv.trans (h.valid p (hl.symm.trans hlock) fun he => ?_)
  rw [he] at hx
  exact absurd rfl (of_decide_eq_false hx)

/-- The process that has the lock goes on with it. -/
theorem BufOk.holder (hl : b.lock = some p) (hl' : b'.lock = some p)
    (hv : y ≠ .reading k → b'.valid = true) (hd : b'.dev = ROOTDEV) :
    BufOk k b' (update pc p y) := by
  refine .of_update (fun _ => hl') (fun _ => hv) (fun q _ hq => ?_)
    (fun _ hqp hlock _ => absurd (some.inj (hlock.symm.trans hl')) hqp) (fun _ => hd)
  rw [hl', ← hl, h.owns q hq]

/-- The lock is released. -/
theorem BufOk.release (hl : b.lock = some p) (hl' : b'.lock = none) (hy : y.owns k = false)
    (hd : b'.dev = ROOTDEV) : BufOk k b' (update pc p y) := by
  have hno : ∀ q, b'.lock ≠ some q := fun q => by rw [hl']; exact nofun
  exact .of_update (fun hc => absurd (hy.symm.trans hc) nofun) (fun hlock => absurd hlock (hno p))
    (fun q hqp hq => absurd (some.inj ((h.owns q hq).symm.trans hl)) hqp)
    (fun q _ hlock => absurd hlock (hno q)) (fun _ => hd)

/-- The lock is taken. -/
theorem BufOk.take (hl : b.lock = none) (hl' : b'.lock = some p) (hd : b'.dev = ROOTDEV) :
    BufOk k b' (update pc p (.reading k)) :=
  .of_update (fun _ => hl') (fun _ hc => absurd rfl hc)
    (fun q _ hq => absurd (hl.symm.trans (h.owns q hq)) nofun)
    (fun _ hqp hlock _ => absurd (some.inj (hlock.symm.trans hl')) hqp) (fun _ => hd)

end buf

/-- What `bread` does to a buffer. -/
theorem Buf.read_eq (b : Buf β) (v : β) : (b.read v).valid = true ∧ (b.read v).lock = b.lock ∧
    (b.read v).refcnt = b.refcnt ∧ (b.read v).dev = b.dev ∧ (b.read v).blockno = b.blockno := by
  unfold Buf.read
  split
  · next hv => exact ⟨hv, rfl, rfl, rfl, rfl⟩
  · exact ⟨rfl, rfl, rfl, rfl, rfl⟩

/-! ## The invariant at work -/

namespace Inv

variable {s s' : State β} {p : ℕ} {k : Fin NBUF} {C : Config}

section

variable (I : Inv s)
include I

/-- A buffer that is locked is in use. -/
theorem refcnt_pos_of_lock (hl : (s.buf k).lock = some p) : 0 < (s.buf k).refcnt := by
  rw [I.count k, users, hl, isSome_some, Bool.toNat_true]
  omega

theorem dev_of_lock (hl : (s.buf k).lock = some p) : (s.buf k).dev = ROOTDEV :=
  (I.buf k).dev (I.refcnt_pos_of_lock hl)

theorem refcnt_pos_of_wants (h : (s.pc p).wants k = true) : 0 < (s.buf k).refcnt := by
  have hpos : 0 < s.procs.countP (wants k) := Pool.countP_pos rfl h
  rw [I.count k, users]
  omega

theorem refcnt_pos_of_pins (h : 0 < s.pins k) : 0 < (s.buf k).refcnt := by
  rw [I.count k, users]
  omega

theorem valid_of_locks (h : s.locks p k) : (s.buf k).valid = true :=
  (I.buf k).valid p h.2 (by rw [h.1]; exact nofun)

/-- A buffer that nobody refers to. -/
theorem unused (hr : (s.buf k).refcnt = 0) : (s.buf k).lock = none ∧ s.pinned k = false := by
  have := I.count k
  rw [hr, users] at this
  constructor
  · cases hl : (s.buf k).lock with
    | none => rfl
    | some =>
      rw [hl, isSome_some, Bool.toNat_true] at this
      omega
  · cases hpin : s.pinned k with
    | false => rfl
    | true =>
      rw [hpin, Bool.toNat_true] at this
      omega

/-- The searches of `bget`. -/
theorem walk_eq : ∃ l : List (Fin NBUF), (∀ k, k ∈ l) ∧ ∀ f : Fin NBUF → Bool,
    Links.walk s.links.next f (NBUF + 1) (s.links.next none) = some (l.find? f) ∧
    Links.walk s.links.prev f (NBUF + 1) (s.links.prev none) = some (l.reverse.find? f) := by
  obtain ⟨l, hc, hl⟩ := I.circle
  have hlen : l.length < NBUF + 1 := by
    have := hc.nodup.length_le_card
    rw [Fintype.card_fin] at this
    exact Nat.lt_succ_of_le this
  refine ⟨l, hl, fun f => ⟨hc.seg.walk f hlen, ?_⟩⟩
  exact hc.seg.reverse.walk f (by rw [length_reverse]; exact hlen)

/-- **What `bget` can do**: there is no buffer, the block has one, or one that nobody
refers to is recycled. The searches come to an end. -/
theorem bget_cases (p blockno : ℕ) :
    s.bget p ROOTDEV blockno = .error (.panic .noBuffers) ∨
    (∃ k, ((s.buf k).dev = ROOTDEV ∧ (s.buf k).blockno = blockno) ∧ s.bget p ROOTDEV blockno =
      .ok ((s.setBuf k { s.buf k with refcnt := (s.buf k).refcnt + 1 }).setPc p (.waiting k))) ∨
    ∃ k, (s.buf k).refcnt = 0 ∧
      (∀ j, ¬ ((s.buf j).dev = ROOTDEV ∧ (s.buf j).blockno = blockno)) ∧
      s.bget p ROOTDEV blockno =
        .ok ((s.setBuf k { s.buf k with dev := ROOTDEV, blockno := blockno, valid := false,
                                        refcnt := 1 }).setPc p (.waiting k)) := by
  obtain ⟨l, hl, hwalk⟩ := I.walk_eq
  unfold bget
  rw [(hwalk _).1]
  cases hf : l.find? (fun k => decide ((s.buf k).dev = ROOTDEV ∧ (s.buf k).blockno = blockno)) with
  | some k =>
    have hk := find?_some hf
    exact .inr (.inl ⟨k, of_decide_eq_true hk, rfl⟩)
  | none =>
    have hno : ∀ j, ¬ ((s.buf j).dev = ROOTDEV ∧ (s.buf j).blockno = blockno) :=
      fun j h => find?_eq_none.mp hf j (hl j) (decide_eq_true h)
    rw [(hwalk _).2]
    cases hz : l.reverse.find? (fun k => decide ((s.buf k).refcnt = 0)) with
    | none => exact .inl rfl
    | some k =>
      have hk := find?_some hz
      exact .inr (.inr ⟨k, of_decide_eq_true hk, hno, rfl⟩)

end

end Inv

/-! ## What a step can do -/

/-- **What a step can do.** In each case `h` or `hx` says where the process is. -/
inductive Step (s : State β) : Label β → State β → Prop
  | refer {p blockno k} (hx : s.pc p = .idle)
      (hk : (s.buf k).dev = ROOTDEV ∧ (s.buf k).blockno = blockno) :
      Step s (.bread p blockno) ((s.bpin k).setPc p (.waiting k))
  | recycle {p blockno k} (hx : s.pc p = .idle) (hr : (s.buf k).refcnt = 0)
      (hno : ∀ j, ¬ ((s.buf j).dev = ROOTDEV ∧ (s.buf j).blockno = blockno)) :
      Step s (.bread p blockno) ((s.setBuf k { s.buf k with
        dev := ROOTDEV, blockno := blockno, valid := false, refcnt := 1 }).setPc p (.waiting k))
  | modify {p k v} (h : s.locks p k) : Step s (.modify p k v) ((s.fill k v).setPc p .idle)
  | absorb {p k} (h : s.locks p k) (ht : s.tail = none) (hmem : (s.buf k).blockno ∈ s.lh) :
      Step s (.logWrite p k) (s.setBuf k { s.buf k with dirt := .logged })
  | log {p k} (h : s.locks p k) (ht : s.tail = none) (hnew : (s.buf k).blockno ∉ s.lh) :
      Step s (.logWrite p k) { s.setBuf k { s.buf k with
        refcnt := (s.buf k).refcnt + 1, dirt := .logged } with lh := s.lh ++ [(s.buf k).blockno] }
  | bwrite {p k} (h : s.locks p k) : Step s (.bwrite p k) ((s.bwrite k).setPc p .idle)
  | bpin {p k} (h : s.locks p k) :
      Step s (.bpin p k) { s.bpin k with pins := update s.pins k (s.pins k + 1) }
  | bunpin {p k} (h : s.pc p = .idle ∧ 0 < s.pins k) :
      Step s (.bunpin p k) { s.bunpin k with pins := update s.pins k (s.pins k - 1) }
  | brelse {p k} (h : s.locks p k) : Step s (.brelse p k) (s.releasesleep p k)
  | commit {p} (h : s.pc p = .idle ∧ s.tail = none ∧ s.lh ≠ []) :
      Step s (.commit p) { s with tail := some 0 }
  | copy {p j k t} (h : s.locks p k) (ht : s.tail = some t)
      (hlt : s.lh[t]? = some (s.buf k).blockno) :
      Step s (.copy p j k) ((s.fill k (s.buf j).data).setPc p (.copied k))
  | endCommit {p} (h : s.pc p = .idle ∧ s.tail = some s.lh.length) :
      Step s (.endCommit p) { s with lh := [], tail := none }
  | acquire {p k} (hx : s.pc p = .waiting k) (hl : (s.buf k).lock = none) :
      Step s (.run p) ((s.setBuf k { s.buf k with lock := some p }).setPc p (.reading k))
  | read {p k} (hx : s.pc p = .reading k) : Step s (.run p) (s.bread p k)
  | release {p k} (hx : s.pc p = .releasing k) : Step s (.run p) (s.brelse p k)
  | write {p k} (hx : s.pc p = .copied k) :
      Step s (.run p) ((s.bwrite k).setPc p (.written k))
  | unpin {p k} (hx : s.pc p = .written k) :
      Step s (.run p) { (s.bunpin k).setPc p .idle with tail := s.tail.map (· + 1) }

section

variable {s s' : State β} {p : ℕ} {C : Config} {l : Label β}

theorem Inv.step_cases (I : Inv s) (h : step C s l = some s') :
    l.proc < s.procs.length ∧ Step s l s' := by
  replace h : s.exec C l = .ok s' := by
    unfold step at h
    cases he : s.exec C l with
    | error =>
      rw [he] at h
      cases h
    | ok =>
      rw [he] at h
      rw [some.inj h]
  unfold State.exec at h
  split_ifs at h with hp
  refine ⟨hp, ?_⟩
  cases l with
  | bread p blockno =>
    rw [call] at h
    split_ifs at h with hx
    rcases I.bget_cases p blockno with he | ⟨k, hk, he⟩ | ⟨k, hr, hno, he⟩ <;>
      cases he.symm.trans h
    · exact .refer hx hk
    · exact .recycle hx hr hno
  | modify p k v =>
    rw [call] at h
    split_ifs at h with hk
    cases h
    rw [← setPc_self (s := s.fill k v) hp hk.1]
    exact .modify hk
  | bwrite p k =>
    rw [call] at h
    split_ifs at h with hk
    cases h
    rw [← setPc_self (s := s.bwrite k) hp hk.1]
    exact .bwrite hk
  | logWrite p k =>
    simp only [call, logWrite] at h
    split_ifs at h with hk _ ht hmem <;> cases h
    · exact .absorb hk (not_ne_iff.mp ht) hmem
    · rw [bpin, buf_setBuf_self, setBuf_setBuf]
      exact .log hk (not_ne_iff.mp ht) hmem
  | copy p j k =>
    rw [call] at h
    split at h
    · cases h
    · next t ht =>
      split_ifs at h with hk
      cases h
      exact .copy hk.2.1 ht hk.2.2.2
  | run p =>
    simp only [call, run, acquire] at h
    cases hx : s.pc p with
    | idle =>
      rw [hx] at h
      cases h
    | waiting =>
      simp only [hx] at h
      split_ifs at h with hl
      cases h
      exact .acquire hx hl
    | reading | releasing | copied | written =>
      rw [hx] at h
      cases h
      constructor
      exact hx
  | _ =>
    rw [call] at h
    split_ifs at h with hk
    cases h
    constructor
    exact hk

/-- **A process in a function makes no other call.** -/
theorem Step.eq_run (h : Step s l s') (hx : s.pc l.proc ≠ .idle) : l = .run l.proc := by
  cases h with
  | refer h | recycle h => exact absurd h hx
  | modify h | absorb h | log h | bwrite h | bpin h | bunpin h | brelse h | commit h | copy h
  | endCommit h => exact absurd h.1 hx
  | _ => rfl

/-- **A step moves one process.** -/
theorem Step.pc_eq (h : Step s l s') {q : ℕ} (hq : q ≠ l.proc) : s'.pc q = s.pc q := by
  have hset : ∀ {t : State β} {y}, t.procs = s.procs.set l.proc y → t.pc q = s.pc q := by
    intro t y ht
    rw [pc, ht, getD_eq_getElem?_getD, getElem?_set_ne hq.symm, ← getD_eq_getElem?_getD]
    rfl
  cases h with
  | absorb | log | bpin | bunpin | commit | endCommit => rfl
  | release => exact hset Change.brelse.procs
  | _ => exact hset rfl

/-- **A buffer that is in use is not recycled.** -/
theorem Step.keeps (h : Step s l s') : Keeps s s' := by
  cases h with
  | @recycle _ _ k _ hr =>
    intro j hj
    have hjk : j ≠ k := by
      rintro rfl
      omega
    show ((s.setBuf k _).buf j).dev = _ ∧ ((s.setBuf k _).buf j).blockno = _
    rw [buf_setBuf_of_ne _ _ hjk]
    exact ⟨rfl, rfl⟩
  | read => exact keeps_of_buf rfl (Buf.read_eq _ _).2.2.2
  | release => exact keeps_of_buf Change.brelse.buf ⟨rfl, rfl⟩
  | commit | endCommit => exact fun _ _ => ⟨rfl, rfl⟩
  | _ => exact keeps_of_buf rfl ⟨rfl, rfl⟩

end

/-! ## The functions -/

namespace Inv

variable {s s' : State β} {p : ℕ} {k : Fin NBUF} {C : Config}

section

variable (I : Inv s)
include I

/-- `bget` finds the block. -/
theorem refer (hp : p < s.procs.length) (hx : s.pc p = .idle) (hd : (s.buf k).dev = ROOTDEV) :
    Inv ((s.bpin k).setPc p (.waiting k)) := by
  refine I.buf_step (k := k) (n := s.pins k) hp ⟨⟨rfl, rfl, (update_eq_self ..).symm, rfl, rfl⟩,
    rfl, rfl⟩ I.circle hx (.inl rfl) (.inr rfl) hd ?_
    ((I.buf k).move (by rw [hx]; rfl) rfl rfl rfl hd) nofun
  simp only [wants, decide_true, Bool.toNat_true, Bool.toNat_false]

/-- A buffer that is not in use may be for any block that has no buffer. -/
theorem rekey (hr : (s.buf k).refcnt = 0) {blockno : ℕ}
    (hno : ∀ j, ¬ ((s.buf j).dev = ROOTDEV ∧ (s.buf j).blockno = blockno)) :
    Inv (s.setBuf k { s.buf k with dev := ROOTDEV, blockno := blockno, valid := false }) := by
  obtain ⟨hl, hpin⟩ := I.unused hr
  have hself := s.buf_setBuf_self k { s.buf k with dev := ROOTDEV, blockno, valid := false }
  have hother := fun j (hj : j ≠ k) =>
    s.buf_setBuf_of_ne { s.buf k with dev := ROOTDEV, blockno, valid := false } hj
  have hown : ∀ q, (s.pc q).owns k = true → False := by
    intro q hq
    have := (I.buf k).owns q hq
    rw [hl] at this
    cases this
  generalize hs' : s.setBuf k { s.buf k with dev := ROOTDEV, blockno, valid := false } = s'
    at hself hother ⊢
  have hpending : s'.pending = s.pending := by rw [← hs']; rfl
  have hpc : s'.pc = s.pc := by rw [← hs']; rfl
  refine ⟨by rw [← hs']; exact I.circle, fun i j hi hj hij => ?_, fun j => ?_, fun j => ?_,
    by rw [← hs']; exact I.nodup, fun c hc => ?_, fun q j hq => ?_⟩
  · by_cases hik : i = k
    · by_cases hjk : j = k
      · rw [hik, hjk]
      · rw [hik, hself, hother j hjk] at hij
        rw [hother j hjk] at hj
        exact absurd ⟨hj, hij.symm⟩ (hno j)
    · rw [hother i hik] at hi hij
      by_cases hjk : j = k
      · rw [hjk, hself] at hij
        exact absurd ⟨hi, hij⟩ (hno i)
      · rw [hother j hjk] at hj hij
        exact I.unique i j hi hj hij
  · have hold := I.count j
    have hprocs : s'.procs = s.procs := by rw [← hs']; rfl
    have hpins : s'.pins = s.pins := by rw [← hs']; rfl
    unfold users pinned at hold ⊢
    rw [hpending, hprocs, hpins]
    by_cases hjk : j = k
    · -- the new block is not in the log, since it would have a buffer
      have hnot : blockno ∉ s.pending := by
        intro hm
        obtain ⟨i, hi⟩ := I.cached blockno hm
        exact hno i hi
      rw [pinned] at hpin
      rw [hjk, hpin] at hold
      rw [hjk, hself]
      simp only [hnot, and_false, decide_false]
      exact hold
    · rw [hother j hjk]
      exact hold
  · rw [hpc]
    by_cases hjk : j = k
    · rw [hjk, hself]
      refine ⟨(I.buf k).owns, fun q hq _ => ?_, fun _ => rfl⟩
      rw [show (s.buf k).lock = some q from hq] at hl
      cases hl
    · rw [hother j hjk]
      exact I.buf j
  · rw [hpending] at hc
    obtain ⟨j, hj⟩ := I.cached c hc
    have hjk : j ≠ k := by
      rintro rfl
      exact of_decide_eq_false hpin ⟨hj.1, by rw [hj.2]; exact hc⟩
    exact ⟨j, by rw [hother j hjk]; exact hj⟩
  · rw [hpc] at hq
    have hjk : j ≠ k := by
      rintro rfl
      rcases hq with hq | hq
      · exact hown q (by rw [hq]; exact decide_eq_true rfl)
      · exact hown q (by rw [hq]; exact decide_eq_true rfl)
    rw [hother j hjk, show s'.tail = s.tail by rw [← hs']; rfl,
      show s'.lh = s.lh by rw [← hs']; rfl]
    exact I.install q j hq

variable (hp : p < s.procs.length)
include hp

/-- `bget` recycles a buffer. -/
theorem recycle (hx : s.pc p = .idle) (hr : (s.buf k).refcnt = 0) {blockno : ℕ}
    (hno : ∀ j, ¬ ((s.buf j).dev = ROOTDEV ∧ (s.buf j).blockno = blockno)) :
    Inv ((s.setBuf k { s.buf k with
      dev := ROOTDEV, blockno := blockno, valid := false, refcnt := 1 }).setPc p (.waiting k)) := by
  have I₁ := (I.rekey hr hno).refer hp hx (by rw [buf_setBuf_self])
  rw [bpin, buf_setBuf_self, setBuf_setBuf] at I₁
  simpa only [hr, zero_add] using I₁

/-- `acquiresleep` at the end of `bget`. -/
theorem acquire (hx : s.pc p = .waiting k) (hl : (s.buf k).lock = none) :
    Inv ((s.setBuf k { s.buf k with lock := some p }).setPc p (.reading k)) := by
  have hd := (I.buf k).dev (I.refcnt_pos_of_wants (by rw [hx]; exact decide_eq_true rfl))
  refine I.buf_step (k := k) (n := s.pins k) hp ⟨⟨rfl, rfl, (update_eq_self ..).symm, rfl, rfl⟩,
    rfl, rfl⟩ I.circle hx (.inr rfl) (.inr rfl) hd ?_ ((I.buf k).take hl rfl hd) nofun
  rw [hl]
  simp only [wants, decide_true, Bool.toNat_true, Bool.toNat_false, isSome_none,
    isSome_some]

/-- A process with the lock goes on with it. -/
theorem hold (hl : (s.buf k).lock = some p) {y : Pc} {b : Buf β}
    (C : Change s s' p y k b (s.pins k)) (hlinks : s'.links = s.links)
    (hx : s.pc p = .idle ∨ (s.pc p).owns k = true) (hy : y = .idle ∨ y.owns k = true)
    (hinst : y = .copied k ∨ y = .written k →
      ∃ t, s.tail = some t ∧ s.lh[t]? = some (s.buf k).blockno) (hlock : b.lock = some p)
    (hv : y ≠ .reading k → b.valid = true) (hr : b.refcnt = (s.buf k).refcnt) : Inv s' := by
  have habout : ∀ {z : Pc}, z = .idle ∨ z.owns k = true → z.wants k = false ∧ z.At k := by
    rintro z (rfl | hz)
    · exact ⟨rfl, .inl rfl⟩
    · cases z with
      | reading | copied | written =>
        exact ⟨rfl, .inr (congrArg some (of_decide_eq_true hz))⟩
      | _ => cases hz
  have hd := I.dev_of_lock hl
  refine I.buf_step hp C (by rw [hlinks]; exact I.circle) rfl (habout hx).2 (habout hy).2 hd ?_
    ((I.buf k).holder hl hlock hv (C.key.1.trans hd)) hinst
  rw [hr, hl, hlock, (habout hx).1, (habout hy).1]

end

section

variable (I : Inv s)
include I

section

variable (hp : p < s.procs.length) {y : Pc}
include hp

/-- The end of `bread`. -/
theorem bread (hx : s.pc p = .reading k) : Inv (s.bread p k) := by
  have hx' : (s.pc p).owns k = true := by rw [hx]; exact decide_eq_true rfl
  have hl := (I.buf k).owns p hx'
  obtain ⟨hv, hlock, hr, hkey⟩ := Buf.read_eq (s.buf k) (s.disk (s.buf k).blockno)
  exact I.hold hp hl ⟨⟨rfl, rfl, (update_eq_self ..).symm, hkey⟩, rfl, rfl⟩ rfl (.inr hx')
    (.inl rfl) nofun (hlock.trans hl) (fun _ => hv) hr

/-- The contents of a buffer are changed. -/
theorem fill (h : s.locks p k) (v : β)
    (hy : y = .idle ∨ (y = .copied k ∧ ∃ t, s.tail = some t ∧ s.lh[t]? = some (s.buf k).blockno)) :
    Inv ((s.fill k v).setPc p y) := by
  refine I.hold hp h.2 ⟨⟨rfl, rfl, (update_eq_self ..).symm, rfl, rfl⟩, rfl, rfl⟩ rfl (.inl h.1)
    (hy.imp id (fun hy => ?_)) (fun hc => ?_) h.2 (fun _ => I.valid_of_locks h) rfl
  · rw [hy.1]
    exact decide_eq_true rfl
  · rcases hy with rfl | ⟨-, ht⟩
    · simp at hc
    · exact ht

/-- `bwrite`. -/
theorem bwrite (hl : (s.buf k).lock = some p)
    (hxy : (s.pc p = .idle ∧ y = .idle) ∨ (s.pc p = .copied k ∧ y = .written k)) :
    Inv ((s.bwrite k).setPc p y) := by
  have hv : (s.buf k).valid = true := by
    refine (I.buf k).valid p hl ?_
    rcases hxy with ⟨hx, -⟩ | ⟨hx, -⟩ <;> rw [hx] <;> exact nofun
  refine I.hold hp hl ⟨⟨rfl, rfl, (update_eq_self ..).symm, rfl, rfl⟩, rfl, rfl⟩ rfl
    (hxy.imp (·.1) (fun h => ?_)) (hxy.imp (·.2) (fun h => ?_)) (fun hc => ?_) hl (fun _ => hv) rfl
  · rw [h.1]
    exact decide_eq_true rfl
  · rw [h.2]
    exact decide_eq_true rfl
  · rcases hxy with ⟨-, rfl⟩ | ⟨hx, -⟩
    · simp at hc
    · exact I.install p k (.inl hx)

/-- `releasesleep` in `brelse`. -/
theorem releasesleep (h : s.locks p k) : Inv (s.releasesleep p k) := by
  have hd := I.dev_of_lock h.2
  refine I.buf_step (k := k) (n := s.pins k) hp ⟨⟨rfl, rfl, (update_eq_self ..).symm, rfl, rfl⟩,
    rfl, rfl⟩ I.circle h.1 (.inl rfl) (.inr rfl) hd ?_ ((I.buf k).release h.2 rfl rfl hd) nofun
  rw [h.2]
  simp only [wants, decide_true, Bool.toNat_true, Bool.toNat_false, isSome_none,
    isSome_some]

/-- The section of `brelse` under `bcache.lock`. -/
theorem brelse (hx : s.pc p = .releasing k) : Inv (s.brelse p k) := by
  have hpos := I.refcnt_pos_of_wants (by rw [hx]; exact decide_eq_true rfl)
  have hd := (I.buf k).dev hpos
  refine I.buf_step hp Change.brelse ?_ hx (.inr rfl) (.inl rfl) hd ?_
    ((I.buf k).move (by rw [hx]; rfl) rfl rfl rfl hd) nofun
  · obtain ⟨l, hc, hl⟩ := I.circle
    unfold State.brelse
    split
    · -- the buffer goes from its place to the front
      obtain ⟨l₁, l₂, rfl⟩ := append_of_mem (hl k)
      have hnot : k ∉ l₁ ++ l₂ := (nodup_middle.mp hc.nodup).notMem
      refine ⟨k :: (l₁ ++ l₂), hc.unlink.pushFront hnot, fun j => ?_⟩
      have := hl j
      rw [mem_append, mem_cons] at this
      rw [mem_cons, mem_append]
      tauto
    · exact ⟨l, hc, hl⟩
  · simp only [wants, decide_true, Bool.toNat_true, Bool.toNat_false]
    omega

/-- `bpin` by a process. -/
theorem bpin (h : s.locks p k) :
    Inv { s.bpin k with pins := update s.pins k (s.pins k + 1) } := by
  have hd := I.dev_of_lock h.2
  refine I.buf_step hp (Change.bpin hp h.1) I.circle h.1 (.inl rfl) (.inl rfl) hd ?_
    ((I.buf k).move (by rw [h.1]; rfl) rfl rfl rfl hd) nofun
  show (s.buf k).refcnt + 1 + 0 + (s.buf k).lock.isSome.toNat + s.pins k =
    (s.buf k).refcnt + 0 + (s.buf k).lock.isSome.toNat + (s.pins k + 1)
  omega

/-- `bunpin` by a process. -/
theorem bunpin (hx : s.pc p = .idle) (h : 0 < s.pins k) :
    Inv { s.bunpin k with pins := update s.pins k (s.pins k - 1) } := by
  have hpos := I.refcnt_pos_of_pins h
  have hd := (I.buf k).dev hpos
  refine I.buf_step hp (Change.bunpin hp hx) I.circle hx (.inl rfl) (.inl rfl) hd ?_
    ((I.buf k).move (by rw [hx]; rfl) rfl rfl rfl hd) nofun
  show (s.buf k).refcnt - 1 + 0 + (s.buf k).lock.isSome.toNat + s.pins k =
    (s.buf k).refcnt + 0 + (s.buf k).lock.isSome.toNat + (s.pins k - 1)
  omega

end

/-- Only the log has changed. -/
theorem of_log (lh : List ℕ) (tail : Option ℕ) (hpending : lh.drop (tail.getD 0) = s.pending)
    (hnodup : lh.Nodup) (hinst : ∀ p k, s.pc p = .copied k ∨ s.pc p = .written k →
      ∃ t, tail = some t ∧ lh[t]? = some (s.buf k).blockno) :
    Inv { s with lh := lh, tail := tail } := by
  have hp : pending { s with lh := lh, tail := tail } = s.pending := hpending
  refine ⟨I.circle, I.unique, fun k => ?_, I.buf, hnodup, fun c hc => I.cached c (hp ▸ hc), hinst⟩
  have hpin : pinned { s with lh := lh, tail := tail } k = s.pinned k := by
    unfold pinned
    rw [hp]
  show (s.buf k).refcnt = s.procs.countP (wants k) + (s.buf k).lock.isSome.toNat + s.pins k +
    (pinned { s with lh := lh, tail := tail } k).toNat
  rw [hpin]
  exact I.count k

/-- `log_write` of a block that is in the log. -/
theorem absorb (hp : p < s.procs.length) (h : s.locks p k) :
    Inv (s.setBuf k { s.buf k with dirt := .logged }) :=
  I.hold hp h.2 ⟨⟨(Pool.set_self hp h.1).symm, rfl, (update_eq_self ..).symm, rfl, rfl⟩, rfl, rfl⟩
    rfl (.inl h.1) (.inl rfl) nofun h.2 (fun _ => I.valid_of_locks h) rfl

/-- `log_write` of a new block. -/
theorem log (hp : p < s.procs.length) (h : s.locks p k) (ht : s.tail = none)
    (hnew : (s.buf k).blockno ∉ s.lh) :
    Inv { s.setBuf k { s.buf k with refcnt := (s.buf k).refcnt + 1, dirt := .logged } with
      lh := s.lh ++ [(s.buf k).blockno] } := by
  have hd := I.dev_of_lock h.2
  have hdrop : ∀ l : List ℕ, l.drop (s.tail.getD 0) = l := by
    intro l
    rw [ht]
    rfl
  refine I.move_step (k := k) (n := s.pins k) hp
    ⟨(Pool.set_self hp h.1).symm, rfl, (update_eq_self ..).symm, rfl, rfl⟩ I.circle h.1
    (.inl rfl) (.inl rfl) hd (fun c hc => ?_) ?_
    ((I.buf k).holder h.2 h.2 (fun _ => I.valid_of_locks h) hd) ?_ fun q j hq => ?_
  · show c ∈ (s.lh ++ [(s.buf k).blockno]).drop (s.tail.getD 0) ↔ c ∈ s.lh.drop (s.tail.getD 0)
    rw [hdrop, hdrop]
    simp [hc]
  · show (s.buf k).refcnt + 1 + 0 + (s.buf k).lock.isSome.toNat + s.pins k +
        (decide ((s.buf k).blockno ∈ s.lh.drop (s.tail.getD 0))).toNat =
      (s.buf k).refcnt + 0 + (s.buf k).lock.isSome.toNat + s.pins k +
        (decide (_ ∈ (s.lh ++ [(s.buf k).blockno]).drop (s.tail.getD 0))).toNat
    rw [hdrop, hdrop, decide_eq_false hnew,
      decide_eq_true (mem_append_right _ (mem_singleton_self _)), Bool.toNat_true, Bool.toNat_false]
    omega
  · rw [← concat_eq_append]
    exact I.nodup.concat hnew
  · rw [← h.1, update_eq_self] at hq
    obtain ⟨_, ht', -⟩ := I.install q j hq
    rw [ht] at ht'
    cases ht'

/-- The block that is installed is the next one that is pending. -/
theorem pending_of_written (hx : s.pc p = .written k) : ∃ t, s.tail = some t ∧
    s.lh[t]? = some (s.buf k).blockno ∧ s.pending = (s.buf k).blockno :: s.lh.drop (t + 1) := by
  obtain ⟨t, ht, hlt⟩ := I.install p k (.inr hx)
  obtain ⟨htlt, hget⟩ := List.getElem?_eq_some_iff.mp hlt
  refine ⟨t, ht, hlt, ?_⟩
  rw [pending, ht, getD_some, drop_eq_getElem_cons htlt, hget]

/-- `bunpin` in `install_trans`. -/
theorem unpin (hp : p < s.procs.length) (hx : s.pc p = .written k) :
    Inv { (s.bunpin k).setPc p .idle with tail := s.tail.map (· + 1) } := by
  have hx' : (s.pc p).owns k = true := by rw [hx]; exact decide_eq_true rfl
  have hl := (I.buf k).owns p hx'
  have hd := I.dev_of_lock hl
  obtain ⟨t, ht, hlt, hpend⟩ := I.pending_of_written hx
  have hnot : (s.buf k).blockno ∉ s.lh.drop (t + 1) := by
    have hnd : s.pending.Nodup := I.nodup.sublist (drop_sublist _ s.lh)
    rw [hpend] at hnd
    exact (nodup_cons.mp hnd).1
  rw [ht]
  refine I.move_step (k := k) (n := s.pins k) hp ⟨rfl, rfl, (update_eq_self ..).symm, rfl, rfl⟩
    I.circle hx (.inr rfl) (.inl rfl) hd (fun c hc => ?_) ?_
    ((I.buf k).holder hl hl (fun _ => (I.buf k).valid p hl (by rw [hx]; exact nofun)) hd) I.nodup
    fun q j hq => ?_
  · show c ∈ s.lh.drop (t + 1) ↔ c ∈ s.pending
    rw [hpend, mem_cons, or_iff_right]
    exact hc
  · have hpos := I.refcnt_pos_of_lock hl
    show (s.buf k).refcnt - 1 + 0 + (s.buf k).lock.isSome.toNat + s.pins k + _ =
      (s.buf k).refcnt + 0 + (s.buf k).lock.isSome.toNat + s.pins k +
        (decide ((s.buf k).blockno ∈ s.lh.drop (t + 1))).toNat
    rw [hpend, decide_eq_false hnot, decide_eq_true mem_cons_self, Bool.toNat_true,
      Bool.toNat_false]
    omega
  · -- nobody else installs this block
    have hqp : q ≠ p := by
      rintro rfl
      simp at hq
    rw [update_of_ne hqp] at hq
    obtain ⟨_, ht', hlt'⟩ := I.install q j hq
    have hlj : (s.buf j).lock = some q := by
      refine (I.buf j).owns q ?_
      rcases hq with hq | hq <;> rw [hq] <;> exact decide_eq_true rfl
    rw [ht] at ht'
    cases ht'
    have hjk : j = k :=
      I.unique j k (I.dev_of_lock hlj) hd (some.inj (hlt'.symm.trans hlt))
    rw [hjk, hl] at hlj
    exact absurd (some.inj hlj).symm hqp

end

/-- **A step.** -/
theorem step (I : Inv s) {l : Label β} (hp : l.proc < s.procs.length) (h : Step s l s') :
    Inv s' := by
  cases h with
  | refer hx hk => exact I.refer hp hx hk.1
  | recycle hx hr hno => exact I.recycle hp hx hr hno
  | modify h => exact I.fill hp h _ (.inl rfl)
  | absorb h => exact I.absorb hp h
  | log h ht hnew => exact I.log hp h ht hnew
  | bwrite h => exact I.bwrite hp h.2 (.inl ⟨h.1, rfl⟩)
  | bpin h => exact I.bpin hp h
  | bunpin h => exact I.bunpin hp h.1 h.2
  | brelse h => exact I.releasesleep hp h
  | commit h =>
    refine I.of_log s.lh (some 0) ?_ I.nodup (fun q k hq => ?_)
    · rw [pending, h.2.1]
      rfl
    · obtain ⟨t, ht, -⟩ := I.install q k hq
      rw [h.2.1] at ht
      cases ht
  | copy h ht hlt => exact I.fill hp h _ (.inr ⟨rfl, _, ht, hlt⟩)
  | endCommit h =>
    refine I.of_log [] none ?_ nodup_nil (fun q k hq => ?_)
    · rw [pending, h.2]
      exact (drop_length ..).symm
    · obtain ⟨t, ht, hlt⟩ := I.install q k hq
      rw [h.2] at ht
      cases ht
      rw [getElem?_eq_none (le_refl _)] at hlt
      cases hlt
  | acquire hx hl => exact I.acquire hp hx hl
  | read hx => exact I.bread hp hx
  | release hx => exact I.brelse hp hx
  | @write p k hx =>
    have hl := (I.buf k).owns p (by rw [hx]; exact decide_eq_true rfl)
    exact I.bwrite hp hl (.inr ⟨hx, rfl⟩)
  | unpin hx => exact I.unpin hp hx

/-- **After `binit`.** The buffers are for block 0 of device 0, which is not `ROOTDEV`. -/
theorem boot (n : ℕ) (zero : β) (disk : ℕ → β) : Inv (boot n zero disk) := by
  have hpc : ∀ p, (Bcache.boot n zero disk).pc p = .idle := fun p => by
    show (replicate n idle).getD p .idle = .idle
    rw [getD_eq_getElem?_getD, getElem?_replicate]
    split <;> rfl
  refine ⟨⟨(finRange NBUF).reverse, ?_, ?_⟩, fun j k hj => ?_, fun k => ?_, fun k => ?_,
    nodup_nil, fun b hb => ?_, fun p k h => ?_⟩
  · exact Links.circle_foldl_pushFront (nodup_finRange NBUF)
  · exact fun k => mem_reverse.mpr (mem_finRange k)
  · cases hj
  · have hcount : (replicate n idle).countP (wants k) = 0 :=
      countP_eq_zero.mpr (fun x hx => by rw [eq_of_mem_replicate hx]; exact nofun)
    show 0 = (replicate n idle).countP (wants k) + 0 + 0 + 0
    rw [hcount]
  · refine ⟨fun p hp => ?_, fun p hl => ?_, fun hr => ?_⟩
    · rw [hpc p] at hp
      cases hp
    · cases hl
    · cases hr
  · cases hb
  · rw [hpc p] at h
    rcases h with h | h <;> cases h

/-- **In every run.** -/
theorem of_runs {ok : State β → Label β → Prop}
    (h : Lts.Runs (Bcache.step C) ok s s') (I : Inv s) : Inv s' := by
  refine h.invariant I fun _ _ _ J _ hstep => ?_
  obtain ⟨hp, hs⟩ := J.step_cases hstep
  exact J.step hp hs

end Inv

end Xv6.Bcache
