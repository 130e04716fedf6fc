import OsProject.BcacheInvariant
import OsProject.Redo

/-!
# The buffer of a block has its last contents

The contents that a block was last given through the cache are where `bread` finds them:
in the block's buffer, or on the disk when the block has none. A buffer whose contents the
disk does not have must not be recycled. While a process changes it, its lock keeps it; after
`log_write` the log's pin does, until `install_trans` has written the block to its home
location (`Sync`). This needs the discipline of `bio.c`'s clients, that what is changed is
passed to `log_write` (or `bwrite`) before `brelse`; the list, the reference counts and that
a block has one buffer do not (`Inv`).
-/

namespace Xv6.Bcache

open State List

open Function (update update_eq_self update_of_ne update_self update_apply)

open Journal (Config)

variable {β : Type}

namespace State

/-- **The last contents written to each block**, where the disk had `d₀` at first. All that
fills a buffer counts as a write: what a process stores in it, and the copy that `install_trans`
makes, whatever the block of the log has in it. That this copy is the right one is a matter of
the log (`Journal`), not of the cache. -/
def last (d₀ : ℕ → β) (s : State β) : ℕ → β := Redo.replay Prod.fst Prod.snd d₀ s.hist

end State

/-- A buffer against the disk and the last contents of the blocks. -/
structure Sync (disk last : ℕ → β) (pinned : Bool) (b : Buf β) : Prop where
  data : b.dev = ROOTDEV → b.valid = true → b.data = last b.blockno
  unread : b.valid = false → b.dirt = .clean
  clean : b.dev = ROOTDEV → b.dirt = .clean → disk b.blockno = last b.blockno
  logged : b.dirt = .logged → pinned = true
  dirty : b.dirt = .dirty → b.lock ≠ none

/-- **What holds between steps** when processes keep to the discipline. -/
structure Coherent (d₀ : ℕ → β) (s : State β) : Prop where
  absent : ∀ c, (∀ k, (s.buf k).dev = ROOTDEV → (s.buf k).blockno ≠ c) → s.disk c = s.last d₀ c
  sync : ∀ k, Sync s.disk (s.last d₀) (s.pinned k) (s.buf k)
  written : ∀ p k, s.pc p = .written k → (s.buf k).dirt = .clean

/-! ## Steps -/

namespace Coherent

variable {d₀ : ℕ → β} {s s' : State β} {p : ℕ} {y : Pc} {k : Fin NBUF} {b : Buf β} {n : ℕ}

/-- **The rule for a step at one buffer.** Other blocks are as they were. -/
theorem buf_step (H : Coherent d₀ s) (I : Inv s) (hp : p < s.procs.length)
    (C : Change s s' p y k b n) (hd : (s.buf k).dev = ROOTDEV)
    (hdisk : ∀ c, c ≠ (s.buf k).blockno → s'.disk c = s.disk c)
    (hlast : ∀ c, c ≠ (s.buf k).blockno → s'.last d₀ c = s.last d₀ c)
    (hb : Sync s'.disk (s'.last d₀) (s.pinned k) b)
    (hw : ∀ q, update s.pc p y q = .written k → b.dirt = .clean)
    (hy : ∀ j, y = .written j → j = k) : Coherent d₀ s' := by
  refine ⟨fun c hc => ?_, fun j => ?_, fun q j hq => ?_⟩
  · have hck : c ≠ (s.buf k).blockno := by
      rintro rfl
      exact hc k ((C.key_eq k).1.trans hd) (C.key_eq k).2
    rw [hdisk c hck, hlast c hck]
    refine H.absent c fun j hj hbj => hc j ?_ ?_
    · rw [(C.key_eq j).1]
      exact hj
    · rw [(C.key_eq j).2]
      exact hbj
  · rw [C.pinned]
    by_cases hj : j = k
    · rw [hj, C.buf_self]
      exact hb
    · rw [C.buf_of_ne hj]
      have hjk : (s.buf j).dev = ROOTDEV → (s.buf j).blockno ≠ (s.buf k).blockno :=
        fun hdj he => hj (I.unique j k hdj hd he)
      have hs := H.sync j
      refine ⟨fun hdj hv => ?_, hs.unread, fun hdj hcl => ?_, hs.logged, hs.dirty⟩
      · rw [hlast _ (hjk hdj)]
        exact hs.data hdj hv
      · rw [hdisk _ (hjk hdj), hlast _ (hjk hdj)]
        exact hs.clean hdj hcl
  · rw [pc_eq_update hp C.procs] at hq
    by_cases hj : j = k
    · rw [hj] at hq ⊢
      rw [C.buf_self]
      exact hw q hq
    · rw [C.buf_of_ne hj]
      rw [update_apply] at hq
      split_ifs at hq with hqp
      · exact absurd (hy j hq) hj
      · exact H.written q j hq

/-- A step that changes neither the disk nor contents. -/
theorem idle_step (H : Coherent d₀ s) (I : Inv s) (hp : p < s.procs.length)
    (C : Change s s' p y k b n) (hd : (s.buf k).dev = ROOTDEV) (hdisk : s'.disk = s.disk)
    (hhist : s'.hist = s.hist)
    (hbuf : b.data = (s.buf k).data ∧ b.valid = (s.buf k).valid ∧ b.dirt = (s.buf k).dirt)
    (hlock : b.dirt = .dirty → b.lock ≠ none) (hy : ∀ j, y ≠ .written j) : Coherent d₀ s' := by
  have hlast : s'.last d₀ = s.last d₀ := by rw [last, hhist]; rfl
  have hs := H.sync k
  refine H.buf_step I hp C hd (fun _ _ => by rw [hdisk]) (fun _ _ => by rw [hlast]) ?_
    (fun q hq => ?_) (fun j hj => absurd hj (hy j))
  · rw [hdisk, hlast]
    obtain ⟨hdata, hvalid, hdirt⟩ := hbuf
    obtain ⟨-, hblock⟩ := C.key
    refine ⟨fun h hv => ?_, fun hv => ?_, fun h hc => ?_, fun hl => ?_, hlock⟩
    · rw [hdata, hblock]
      exact hs.data hd (hvalid ▸ hv)
    · rw [hdirt]
      exact hs.unread (hvalid ▸ hv)
    · rw [hblock]
      exact hs.clean hd (hdirt ▸ hc)
    · exact hs.logged (hdirt ▸ hl)
  · rw [hbuf.2.2]
    rw [update_apply] at hq
    split_ifs at hq with hqp
    · exact absurd hq (hy k)
    · exact H.written q k hq

/-- Nobody but the process that has the lock is in `install_trans` with a buffer. -/
theorem written_of_lock (I : Inv s) (hl : (s.buf k).lock = some p) (hy : y ≠ .written k) (q : ℕ) :
    update s.pc p y q ≠ .written k := by
  by_cases hqp : q = p
  · rw [hqp, update_self]
    exact hy
  · rw [update_of_ne hqp]
    intro hq
    have := (I.buf k).owns q (by rw [hq]; exact decide_eq_true rfl)
    exact hqp (Option.some.inj (this.symm.trans hl))

section

variable (H : Coherent d₀ s)
include H

/-- The log has changed. A buffer may have become one that has been passed to `log_write`. -/
theorem relog (hdisk : s'.disk = s.disk) (hhist : s'.hist = s.hist)
    (hpc : ∀ q j, s'.pc q = .written j → s.pc q = .written j)
    (hbuf : ∀ j, ∃ r d, s'.buf j = { s.buf j with refcnt := r, dirt := d } ∧ (d = (s.buf j).dirt ∨
        d = .logged ∧ (s.buf j).valid = true ∧ ∀ q, s.pc q ≠ .written j))
    (hpin : ∀ j, (s'.buf j).dirt = .logged → s'.pinned j = true) : Coherent d₀ s' := by
  have hlast : s'.last d₀ = s.last d₀ := by rw [last, hhist]; rfl
  refine ⟨fun c hc => ?_, fun j => ?_, fun q j hq => ?_⟩
  · rw [hdisk, hlast]
    refine H.absent c fun j hj hbj => ?_
    obtain ⟨r, d, he, -⟩ := hbuf j
    have hcj := hc j
    rw [he] at hcj
    exact hcj hj hbj
  · have hs := H.sync j
    have hpj := hpin j
    obtain ⟨r, d, he, hd⟩ := hbuf j
    rw [he] at hpj ⊢
    rw [hdisk, hlast]
    rcases hd with rfl | ⟨rfl, hv, -⟩
    · exact ⟨hs.data, hs.unread, hs.clean, hpj, hs.dirty⟩
    · exact ⟨hs.data, fun h => absurd (hv.symm.trans h) nofun, nofun, hpj, nofun⟩
  · have hq' := hpc q j hq
    obtain ⟨r, d, he, hd⟩ := hbuf j
    rw [he]
    rcases hd with rfl | ⟨-, -, hno⟩
    · exact H.written q j hq'
    · exact absurd hq' (hno q)

section

variable (I : Inv s)
include I

section

variable (hp : p < s.procs.length)
include hp

/-- `bget` recycles a buffer. -/
theorem recycle (hr : (s.buf k).refcnt = 0) {blockno : ℕ}
    (hno : ∀ j, ¬ ((s.buf j).dev = ROOTDEV ∧ (s.buf j).blockno = blockno))
    (hs' : s' = (s.setBuf k { s.buf k with
      dev := ROOTDEV, blockno := blockno, valid := false, refcnt := 1 }).setPc p (.waiting k)) :
    Coherent d₀ s' := by
  obtain ⟨hl, hpin⟩ := I.unused hr
  -- nobody needs what the buffer has
  have hclean : (s.buf k).dirt = .clean := by
    cases hd : (s.buf k).dirt with
    | clean => rfl
    | logged => exact absurd ((H.sync k).logged hd) (by rw [hpin]; exact nofun)
    | dirty => exact absurd hl ((H.sync k).dirty hd)
  have hno' : ∀ j, (s.buf j).dev = ROOTDEV → (s.buf j).blockno ≠ blockno :=
    fun j hd hb => hno j ⟨hd, hb⟩
  generalize hb : ({ s.buf k with
    dev := ROOTDEV, blockno := blockno, valid := false, refcnt := 1 } : Buf β) = b at hs'
  have hself : s'.buf k = b := by rw [hs']; exact buf_setBuf_self ..
  have hother : ∀ j, j ≠ k → s'.buf j = s.buf j :=
    fun j hj => by rw [hs']; exact buf_setBuf_of_ne _ _ hj
  have hdisk : s'.disk = s.disk := by rw [hs']; rfl
  have hlast : s'.last d₀ = s.last d₀ := by rw [hs']; rfl
  refine ⟨fun c hc => ?_, fun j => ?_, fun q j hq => ?_⟩
  · rw [hdisk, hlast]
    by_cases hck : (s.buf k).dev = ROOTDEV ∧ (s.buf k).blockno = c
    · rw [← hck.2]
      exact (H.sync k).clean hck.1 hclean
    · refine H.absent c fun j hj hbj => ?_
      by_cases hjk : j = k
      · rw [hjk] at hj hbj
        exact hck ⟨hj, hbj⟩
      · have hcj := hc j
        rw [hother j hjk] at hcj
        exact hcj hj hbj
  · rw [hdisk, hlast]
    by_cases hjk : j = k
    · rw [hjk, hself, ← hb]
      refine ⟨nofun, fun _ => hclean, fun _ _ => H.absent blockno hno', fun hlog => ?_,
        fun hdirt => ?_⟩
      · rw [hclean] at hlog
        cases hlog
      · rw [hclean] at hdirt
        cases hdirt
    · have hpinned : s'.pinned j = s.pinned j := by
        unfold pinned
        rw [hother j hjk, hs']
        rfl
      rw [hother j hjk, hpinned]
      exact H.sync j
  · have hq' : update s.pc p (.waiting k) q = .written j := by
      rwa [hs', pc_eq_update hp rfl] at hq
    by_cases hjk : j = k
    · rw [hjk, hself, ← hb]
      exact hclean
    · rw [hother j hjk]
      refine H.written q j ?_
      rw [update_apply] at hq'
      split_ifs at hq' with hqp
      exact hq'

/-- The end of `bread`. -/
theorem bread (hx : s.pc p = .reading k) : Coherent d₀ (s.bread p k) := by
  have hl := (I.buf k).owns p (by rw [hx]; exact decide_eq_true rfl)
  have hd := I.dev_of_lock hl
  have C : Change s (s.bread p k) p .idle k _ (s.pins k) :=
    ⟨⟨rfl, rfl, (update_eq_self ..).symm, (Buf.read_eq _ _).2.2.2⟩, rfl, rfl⟩
  refine H.buf_step I hp C hd (fun _ _ => rfl) (fun _ _ => rfl) ?_
    (fun q hq => absurd hq (written_of_lock (y := .idle) I hl nofun q)) nofun
  have hs := H.sync k
  unfold Buf.read
  split
  · exact hs
  · next hv =>
    have hcl := hs.unread (Bool.eq_false_of_not_eq_true hv)
    exact ⟨fun _ _ => hs.clean hd hcl, nofun, hs.clean, hs.logged, hs.dirty⟩

/-- The contents of a buffer are changed. -/
theorem fill (h : s.locks p k) (v : β) (hy : ∀ j, y ≠ .written j) :
    Coherent d₀ ((s.fill k v).setPc p y) := by
  have C : Change s ((s.fill k v).setPc p y) p y k _ (s.pins k) :=
    ⟨⟨rfl, rfl, (update_eq_self ..).symm, rfl, rfl⟩, rfl, rfl⟩
  have hlast : ((s.fill k v).setPc p y).last d₀ =
      update (s.last d₀) (s.buf k).blockno v := Redo.replay_snoc ((s.buf k).blockno, v)
  refine H.buf_step I hp C (I.dev_of_lock h.2) (fun _ _ => rfl) (fun c hc => ?_) ?_
    (fun q hq => absurd hq (written_of_lock I h.2 (hy k) q)) (fun j hj => absurd hj (hy j))
  · rw [hlast, update_of_ne hc]
  · refine ⟨fun _ _ => ?_, fun hv => ?_, nofun, nofun, fun _ => ?_⟩
    · rw [hlast]
      exact (update_self (s.buf k).blockno v (s.last d₀)).symm
    · exact absurd ((I.valid_of_locks h).symm.trans hv) nofun
    · rw [h.2]
      exact nofun

/-- `bwrite`. -/
theorem bwrite (hl : (s.buf k).lock = some p) (hx : s.pc p ≠ .reading k)
    (hy : ∀ j, y = .written j → j = k) : Coherent d₀ ((s.bwrite k).setPc p y) := by
  have hd := I.dev_of_lock hl
  have hdata := (H.sync k).data hd ((I.buf k).valid p hl hx)
  have C : Change s ((s.bwrite k).setPc p y) p y k _ (s.pins k) :=
    ⟨⟨rfl, rfl, (update_eq_self ..).symm, rfl, rfl⟩, rfl, rfl⟩
  refine H.buf_step I hp C hd (fun c hc => update_of_ne hc ..) (fun _ _ => rfl) ?_
    (fun _ _ => rfl) hy
  refine ⟨fun _ _ => hdata, fun _ => rfl, fun _ _ => ?_, nofun, nofun⟩
  show update s.disk (s.buf k).blockno (s.buf k).data (s.buf k).blockno = _
  rw [update_self]
  exact hdata

end

/-- A buffer is passed to `log_write`: its block is in the log from now on. -/
theorem logged (h : s.locks p k) (htail : s.tail = none) {r : ℕ} {lh : List ℕ}
    (hsub : ∀ c ∈ s.lh, c ∈ lh) (hmem : (s.buf k).blockno ∈ lh) :
    Coherent d₀ { s.setBuf k { s.buf k with refcnt := r, dirt := .logged } with lh := lh } := by
  have hself := s.buf_setBuf_self k { s.buf k with refcnt := r, dirt := .logged }
  have hother := fun j (hj : j ≠ k) =>
    s.buf_setBuf_of_ne { s.buf k with refcnt := r, dirt := .logged } hj
  refine H.relog rfl rfl (fun q j hq => hq) (fun j => ?_) fun j hj => ?_
  · by_cases hjk : j = k
    · have hnow : ∀ q, s.pc q ≠ .written k := by
        intro q hq
        obtain ⟨_, ht, -⟩ := I.install q k (.inr hq)
        rw [htail] at ht
        cases ht
      rw [hjk]
      exact ⟨r, .logged, hself, .inr ⟨rfl, I.valid_of_locks h, hnow⟩⟩
    · exact ⟨_, _, hother j hjk, .inl rfl⟩
  · show decide (((s.setBuf k { s.buf k with refcnt := r, dirt := .logged }).buf j).dev = ROOTDEV ∧
      ((s.setBuf k { s.buf k with refcnt := r, dirt := .logged }).buf j).blockno ∈
        lh.drop (s.tail.getD 0)) = true
    rw [htail]
    by_cases hjk : j = k
    · rw [hjk, hself]
      exact decide_eq_true ⟨I.dev_of_lock h.2, hmem⟩
    · have hj' : (s.buf j).dirt = .logged := (congrArg Buf.dirt (hother j hjk)).symm.trans hj
      have hpin := of_decide_eq_true ((H.sync j).logged hj')
      rw [pending, htail] at hpin
      rw [hother j hjk]
      exact decide_eq_true ⟨hpin.1, hsub _ hpin.2⟩

/-- `bunpin` in `install_trans`: the disk has the contents now. -/
theorem unpin (hp : p < s.procs.length) (hx : s.pc p = .written k) :
    Coherent d₀ { (s.bunpin k).setPc p .idle with tail := s.tail.map (· + 1) } := by
  have hl := (I.buf k).owns p (by rw [hx]; exact decide_eq_true rfl)
  have hd := I.dev_of_lock hl
  obtain ⟨_, ht, -, hpend⟩ := I.pending_of_written hx
  have hself := s.buf_setBuf_self k { s.buf k with refcnt := (s.buf k).refcnt - 1 }
  have hother := fun j (hj : j ≠ k) =>
    s.buf_setBuf_of_ne { s.buf k with refcnt := (s.buf k).refcnt - 1 } hj
  refine H.relog rfl rfl (fun q j hq => ?_) (fun j => ?_) fun j hj => ?_
  · rw [pc_eq_update hp rfl] at hq
    rw [update_apply] at hq
    split_ifs at hq with hqp
    exact hq
  · by_cases hjk : j = k
    · rw [hjk]
      exact ⟨_, _, hself, .inl rfl⟩
    · exact ⟨_, _, hother j hjk, .inl rfl⟩
  · by_cases hjk : j = k
    · rw [hjk] at hj
      have hc : (s.buf k).dirt = .logged := (congrArg Buf.dirt hself).symm.trans hj
      rw [H.written p k hx] at hc
      cases hc
    · have hj' : (s.buf j).dirt = .logged := (congrArg Buf.dirt (hother j hjk)).symm.trans hj
      have hpin := of_decide_eq_true ((H.sync j).logged hj')
      rw [hpend, mem_cons] at hpin
      have hmem := hpin.2.resolve_left (fun he => hjk (I.unique j k hpin.1 hd he))
      show decide (((s.bunpin k).buf j).dev = ROOTDEV ∧ ((s.bunpin k).buf j).blockno ∈
        s.lh.drop ((s.tail.map (· + 1)).getD 0)) = true
      rw [ht, bunpin, hother j hjk]
      exact decide_eq_true ⟨hpin.1, hmem⟩

end

/-- Only the log has changed, and every block that was to be installed still is. -/
theorem of_log {lh : List ℕ} {tail : Option ℕ} (hpending : lh.drop (tail.getD 0) = s.pending) :
    Coherent d₀ { s with lh := lh, tail := tail } := by
  refine H.relog rfl rfl (fun _ _ h => h) (fun j => ⟨_, _, rfl, .inl rfl⟩) fun j hj => ?_
  have hpin : pinned { s with lh := lh, tail := tail } j = s.pinned j := by
    unfold pinned
    rw [show pending { s with lh := lh, tail := tail } = s.pending from hpending]
  rw [hpin]
  exact (H.sync j).logged hj

/-- **A step** after which what was changed has been logged. -/
theorem step (I : Inv s) {l : Label β} (hp : l.proc < s.procs.length) (hok : s.Logged l)
    (h : Step s l s') : Coherent d₀ s' := by
  cases h with
  | refer hx hk =>
    exact H.idle_step I hp ⟨⟨rfl, rfl, (update_eq_self ..).symm, rfl, rfl⟩, rfl, rfl⟩ hk.1 rfl rfl
      ⟨rfl, rfl, rfl⟩ (H.sync _).dirty nofun
  | recycle hx hr hno => exact H.recycle I hp hr hno rfl
  | modify h | copy h => exact H.fill I hp h _ nofun
  | absorb h ht hmem => exact H.logged I h ht (fun _ hc => hc) hmem
  | log h ht =>
    exact H.logged I h ht (fun _ hc => mem_append_left _ hc)
      (mem_append_right _ (mem_singleton_self _))
  | bwrite h => exact H.bwrite I hp h.2 (by rw [h.1]; exact nofun) nofun
  | bpin h =>
    exact H.idle_step I hp (Change.bpin hp h.1) (I.dev_of_lock h.2) rfl rfl ⟨rfl, rfl, rfl⟩
      (H.sync _).dirty nofun
  | bunpin h =>
    exact H.idle_step I hp (Change.bunpin hp h.1) ((I.buf _).dev (I.refcnt_pos_of_pins h.2))
      rfl rfl ⟨rfl, rfl, rfl⟩ (H.sync _).dirty nofun
  | brelse h =>
    exact H.idle_step I hp ⟨⟨rfl, rfl, (update_eq_self ..).symm, rfl, rfl⟩, rfl, rfl⟩
      (I.dev_of_lock h.2) rfl rfl ⟨rfl, rfl, rfl⟩ (fun hd => absurd hd hok) nofun
  | commit h =>
    refine H.of_log ?_
    rw [pending, h.2.1]
    rfl
  | endCommit h =>
    refine H.of_log ?_
    rw [pending, h.2]
    exact (drop_length ..).symm
  | @acquire p k hx =>
    have hd := (I.buf k).dev (I.refcnt_pos_of_wants (by rw [hx]; exact decide_eq_true rfl))
    exact H.idle_step I hp ⟨⟨rfl, rfl, (update_eq_self ..).symm, rfl, rfl⟩, rfl, rfl⟩ hd rfl rfl
      ⟨rfl, rfl, rfl⟩ (fun _ => Option.some_ne_none p) (fun _ h => by cases h)
  | read hx => exact H.bread I hp hx
  | @release p k hx =>
    have hd := (I.buf k).dev (I.refcnt_pos_of_wants (by rw [hx]; exact decide_eq_true rfl))
    refine H.idle_step I hp Change.brelse hd ?_ ?_ ⟨rfl, rfl, rfl⟩ (H.sync k).dirty nofun
    · unfold brelse
      split <;> rfl
    · unfold brelse
      split <;> rfl
  | @write p k hx =>
    have hl := (I.buf k).owns p (by rw [hx]; exact decide_eq_true rfl)
    exact H.bwrite I hp hl (by simp [hx]) fun j hj => (Pc.written.inj hj).symm
  | unpin hx => exact H.unpin I hp hx

end

/-- After `binit`. -/
theorem boot (n : ℕ) (zero : β) (disk : ℕ → β) : Coherent disk (boot n zero disk) := by
  refine ⟨fun c _ => rfl, fun k => ⟨nofun, fun _ => rfl, nofun, nofun, nofun⟩, fun p k hp => ?_⟩
  rfl

end Coherent

/-- **In every run that keeps to the discipline.** -/
theorem coherent_of_runs {C : Config} {n : ℕ} {zero : β} {disk : ℕ → β} {s : State β}
    (h : Lts.Runs (step C) State.Logged (boot n zero disk) s) : Inv s ∧ Coherent disk s := by
  refine h.invariant (I := fun s => Inv s ∧ Coherent disk s) ⟨Inv.boot .., Coherent.boot ..⟩ ?_
  rintro t l t' ⟨I, H⟩ hok hstep
  obtain ⟨hp, hs⟩ := I.step_cases hstep
  exact ⟨I.step hp hs, H.step I hp hok hs⟩

/-! ## `bread` -/

/-- The step is not the one with which `bread` returns to process `p`. -/
def State.Inside (p : ℕ) (s : State β) (l : Label β) : Prop :=
  ∀ k, s.pc p = .reading k → ∀ q, l = .run q → q ≠ p

/-- A process is in `bread` for a block, and has a buffer for it. -/
def State.Breads (s : State β) (p blockno : ℕ) (k : Fin NBUF) : Prop :=
  (s.pc p = .waiting k ∨ s.pc p = .reading k) ∧
    (s.buf k).dev = ROOTDEV ∧ (s.buf k).blockno = blockno

section bread

variable {C : Config} {s s' : State β} {p blockno : ℕ} {k : Fin NBUF} {l : Label β}

/-- `bread` is called. -/
theorem Step.breads (h : Step s (.bread p blockno) s') (hp : p < s.procs.length) :
    ∃ k, s'.Breads p blockno k := by
  have key : ∀ j b, b.dev = ROOTDEV ∧ b.blockno = blockno →
      ∃ k, ((s.setBuf j b).setPc p (.waiting j)).Breads p blockno k := by
    intro j b hb
    refine ⟨j, .inl ?_, ?_⟩
    · rw [pc_eq_update hp rfl, update_self]
    · show ((s.setBuf j b).buf j).dev = _ ∧ ((s.setBuf j b).buf j).blockno = _
      rw [buf_setBuf_self]
      exact hb
  cases h with
  | refer hx hk => exact key _ _ hk
  | recycle => exact key _ _ ⟨rfl, rfl⟩

/-- The buffer is for the block until `bread` returns. -/
theorem Inv.breads_of_step (I : Inv s) (hp : l.proc < s.procs.length) (hb : s.Breads p blockno k)
    (hin : s.Inside p l) (h : Step s l s') : s'.Breads p blockno k := by
  obtain ⟨hx, hd, hblock⟩ := hb
  have hpos : 0 < (s.buf k).refcnt := by
    rcases hx with hx | hx
    · exact I.refcnt_pos_of_wants (by rw [hx]; exact decide_eq_true rfl)
    · exact I.refcnt_pos_of_lock ((I.buf k).owns p (by rw [hx]; exact decide_eq_true rfl))
  obtain ⟨hd', hb'⟩ := h.keeps k hpos
  refine ⟨?_, hd'.trans hd, hb'.trans hblock⟩
  by_cases hq : p = l.proc
  swap
  · rw [h.pc_eq hq]
    exact hx
  have hl : l = .run p := by
    rw [hq]
    refine h.eq_run ?_
    rw [← hq]
    rcases hx with hx | hx <;> rw [hx] <;> exact nofun
  rcases hx with hx | hx
  · subst hl
    cases h with
    | acquire hx' =>
      cases hx.symm.trans hx'
      rw [pc_eq_update hp rfl, Label.proc, update_self]
      exact .inr rfl
    | read hx' | release hx' | write hx' | unpin hx' => cases hx.symm.trans hx'
  · exact absurd rfl (hin k hx p hl)

/-- **`bread` returns the last contents**, with the buffer's lock. -/
theorem Coherent.returns {d₀ : ℕ → β} (H : Coherent d₀ s) (I : Inv s)
    (hb : s.Breads p blockno k) (hx : s.pc p = .reading k) (C : Config) :
    ∃ s', Bcache.step C s (.run p) = some s' ∧ s'.locks p k ∧
      ((s'.buf k).dev = ROOTDEV ∧ (s'.buf k).blockno = blockno) ∧
      (s'.buf k).data = s.last d₀ blockno := by
  have hp : p < s.procs.length := Pool.lt_length (by
    show s.pc p ≠ .idle
    rw [hx]
    exact nofun)
  have hl := (I.buf k).owns p (by rw [hx]; exact decide_eq_true rfl)
  obtain ⟨hv, hlock, -, hd, hblock⟩ := Buf.read_eq (s.buf k) (s.disk (s.buf k).blockno)
  have hself : (s.bread p k).buf k = (s.buf k).read (s.disk (s.buf k).blockno) :=
    buf_setBuf_self ..
  have hdata := ((H.bread I hp hx).sync k).data
  rw [hself, hd, hblock] at hdata
  refine ⟨s.bread p k, ?_, ⟨?_, ?_⟩, ?_, ?_⟩
  · simp only [Bcache.step, State.exec, Label.proc, State.call, State.run, if_pos hp, hx]
    rfl
  · rw [State.pc_eq_update hp rfl, update_self]
  · rw [hself, hlock, hl]
  · rw [hself, hd, hblock]
    exact hb.2
  · rw [hself]
    exact (hdata hb.2.1 hv).trans (congrArg _ hb.2.2)

end bread

/-! ## Any interleaving -/

/-- **The buffer cache is coherent.** Whatever any number of processes do, no two buffers are
for the same block of `ROOTDEV`, the list is circular and has every buffer once, `refcnt`
counts who refers to a buffer, and no step recycles a buffer with `refcnt > 0`. Where every
modification is passed to `log_write` or `bwrite` before `brelse`, a call of `bread` returns
the last contents written to the block, or what the disk had at first. -/
theorem buffer_cache {C : Config} {n : ℕ} {zero : β} {d₀ : ℕ → β} {s : State β}
    (h : Lts.Runs (step C) (fun _ _ => True) (boot n zero d₀) s) :
    (∀ j k, (s.buf j).dev = ROOTDEV → (s.buf j).dev = (s.buf k).dev →
      (s.buf j).blockno = (s.buf k).blockno → j = k) ∧
    (∃ l, s.links.Circle l ∧ l.Perm (List.finRange NBUF)) ∧ (∀ k, (s.buf k).refcnt = s.users k) ∧
    (∀ l s', step C s l = some s' → Keeps s s') ∧
    ∀ s₀ s₁ p blockno, Lts.Runs (step C) State.Logged (boot n zero d₀) s₀ →
      step C s₀ (.bread p blockno) = some s₁ →
      Lts.Runs (step C) (fun t l => t.Logged l ∧ t.Inside p l) s₁ s →
      ∃ k, (s.pc p = .waiting k ∨ s.pc p = .reading k) ∧ (s.pc p = .reading k →
        ∃ s', step C s (.run p) = some s' ∧ s'.locks p k ∧
          ((s'.buf k).dev = ROOTDEV ∧ (s'.buf k).blockno = blockno) ∧
          (s'.buf k).data = s.last d₀ blockno) := by
  have I : Inv s := Inv.of_runs h (Inv.boot ..)
  refine ⟨fun j k hj hjk => I.unique j k hj (hjk ▸ hj), ?_, I.count,
    fun l s' hl => (I.step_cases hl).2.keeps, fun s₀ s₁ p blockno h₀ hcall hrun => ?_⟩
  · obtain ⟨l, hc, hl⟩ := I.circle
    refine ⟨l, hc, (perm_ext_iff_of_nodup hc.nodup (nodup_finRange NBUF)).mpr ?_⟩
    exact fun k => ⟨fun _ => mem_finRange k, fun _ => hl k⟩
  · have hok : s₀.Logged (.bread p blockno) := trivial
    have hlogged : Lts.Runs (step C) State.Logged (boot n zero d₀) s :=
      (h₀.tail hok hcall).trans (hrun.mono (fun _ _ hok => hok.1))
    obtain ⟨I₀, -⟩ := coherent_of_runs h₀
    obtain ⟨hp, hs⟩ := I₀.step_cases hcall
    obtain ⟨k, hk⟩ := hs.breads hp
    obtain ⟨-, hb⟩ := hrun.invariant (I := fun t => Inv t ∧ t.Breads p blockno k)
      ⟨I₀.step hp hs, hk⟩ <| by
        rintro t l t' ⟨J, hb⟩ hok hstep
        obtain ⟨hp, hs⟩ := J.step_cases hstep
        exact ⟨J.step hp hs, J.breads_of_step hp hb hok.2 hs⟩
    exact ⟨k, hb.1, fun hx => (coherent_of_runs hlogged).2.returns I hb hx C⟩

/-- A process writes 7 to block 5 and passes it to `log_write`; another one reads the block. -/
theorem buffer_cache_two_processes : ∃ s : State ℕ,
    Lts.Runs (step Journal.mkfs) (fun _ _ => True) (boot 2 0 (fun _ => 0)) s ∧
    ∃ k s', step Journal.mkfs s (.run 1) = some s' ∧ s'.locks 1 k ∧ (s'.buf k).data = 7 := by
  obtain ⟨s₀, h₀, s₁, h₁, hw, s, h₂, hr, hlast⟩ : ∃ s₀ ∈ Lts.runIf (step Journal.mkfs) State.Logged
      (boot 2 (0 : ℕ) (fun _ => 0))
      [.bread 0 5, .run 0, .run 0, .modify 0 0 7, .logWrite 0 0, .brelse 0 0],
      ∃ s₁ ∈ step Journal.mkfs s₀ (.bread 1 5), s₁.pc 1 = .waiting 0 ∧
        ∃ s ∈ step Journal.mkfs s₁ (.run 1), s.pc 1 = .reading 0 ∧ s.last (fun _ => 0) 5 = 7 := by
    decide +kernel
  replace h₀ := Lts.runs_of_runIf h₀
  have hin : s₁.Logged (.run 1) ∧ s₁.Inside 1 (.run 1) := by
    refine ⟨trivial, fun k hk => ?_⟩
    rw [hw] at hk
    cases hk
  have hrun : Lts.Runs (step Journal.mkfs) (fun _ _ => True) (boot 2 0 (fun _ => 0)) s :=
    ((h₀.mono (fun _ _ _ => trivial)).tail trivial h₁).tail trivial h₂
  obtain ⟨-, -, -, -, hbread⟩ := buffer_cache hrun
  obtain ⟨k, hk, hret⟩ := hbread s₀ s₁ 1 5 h₀ h₁ ((Lts.Runs.refl s₁).tail hin h₂)
  have hk0 : s.pc 1 = .reading k := by
    rcases hk with hk | hk
    · rw [hr] at hk
      cases hk
    · exact hk
  obtain ⟨s', hs', hlocks, -, hdata⟩ := hret hk0
  exact ⟨s, hrun, k, s', hs', hlocks, hdata.trans hlast⟩

/-- After `binit`, all buffers are for block 0 of device 0. -/
theorem zeroed_buffers_agree : ∃ s : State ℕ,
    Lts.Runs (step Journal.mkfs) (fun _ _ => True) (boot 1 0 (fun _ => 0)) s ∧
    ∃ j k, j ≠ k ∧ (s.buf j).dev = (s.buf k).dev ∧ (s.buf j).blockno = (s.buf k).blockno :=
  ⟨_, .refl _, 0, 1, by decide, rfl, rfl⟩

end Xv6.Bcache
