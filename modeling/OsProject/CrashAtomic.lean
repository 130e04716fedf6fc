import OsProject.JournalControl

/-!
# Crash atomicity

What a crash leaves of the operations on the log: a set of whole operations.

At any time the calls of `log_write` so far are `h₁ ++ h₂`, where `h₂` belongs to
the transaction that is open. Of the operations in `h₁`, those in a set `S` have
been committed; the others were cut off by an earlier crash. Then the disk, with
the log if its header is not empty, recovers to the initial disk with the
writes in `h₁` of `S` (`committed`), and the buffer cache shows in addition the
writes in `h₂` (`current`). This is `Atomic`. The write of the header by `commit`
is the step that moves `h₂` to `h₁` and puts its operations in `S`; a crash moves
`h₂` to `h₁` without.
-/

namespace Xv6.Journal

open State List

open Function (update update_of_ne update_self)

/-- A disk with calls of `log_write` applied to it. -/
def overlay (d : ℕ → Block) (ws : List Write) : ℕ → Block :=
  Redo.replay Write.blockno Write.data d ws

/-- The initial disk with the calls of `log_write` by the operations in `S`. -/
def committed (d₀ : ℕ → Block) (S : ℕ → Bool) (ws : List Write) : ℕ → Block :=
  overlay d₀ (ws.filter (fun w => S w.op))

/-- How many blocks `install_trans` is known to have copied. -/
def Phase.cursor : Phase → ℕ
  | .recover tail | .installTrans _ tail => tail
  | .readHead | .normal | .writeLog _ _ | .finish _ => 0

/-- A transaction is open: operations run, or `commit` has not written the
header. -/
def Phase.openTrans : Phase → Bool
  | .normal | .writeLog _ _ => true
  | .readHead | .recover _ | .installTrans _ _ | .finish _ => false

/-- The header on disk, once it has been read. -/
def State.header (s : State) : List ℕ :=
  match s.phase with
  | .recover _ | .installTrans _ _ => s.lh
  | .readHead | .normal | .writeLog _ _ | .finish _ => []

/-- Operation `o` has called `end_op`, and `commit` has returned. -/
def State.Durable (s : State) (o : ℕ) : Prop :=
  s.op o = .committed ∨
    (∃ o', s.phase = .finish o') ∧ (s.op o = .ended ∨ s.op o = .closing)

/-- **The invariant of contents.** -/
structure Atomic (C : Config) (d₀ : ℕ → Block) (S : ℕ → Bool) (h₁ h₂ : List Write) (s : State) :
    Prop where
  split : s.hist = h₁ ++ h₂
  past : ∀ w ∈ h₁, S w.op = false → s.op w.op = .lost ∨ s.op w.op = .cutOff
  current : ∀ w ∈ h₂, (s.Running w.op ∨ s.op w.op = .ended ∨ s.op w.op = .closing) ∧
    S w.op = false ∧ w.blockno ∈ s.lh
  isOver : ∀ o, S o = true → (s.op o).isOver = true
  durable : ∀ o, s.op o = .committed → S o = true
  closed : s.phase.openTrans = false →
    h₂ = [] ∧ ∀ o, s.op o = .ended ∨ s.op o = .closing → S o = true
  head : s.phase ≠ .readHead → getHead (s.disk C.start) = s.header
  fits : ∀ i b, (getHead (s.disk C.start))[i]? = some b → C.home b ∧ i + 1 < C.size
  store : Redo.Recovers C.home s.disk (getHead (s.disk C.start)) s.phase.cursor
    (fun i => s.disk (C.start + i + 1)) (committed d₀ S h₁)
  written : ∀ o t, s.phase = .writeLog o t → ∀ i b, i < t → s.lh[i]? = some b →
    s.disk (C.start + i + 1) = overlay (committed d₀ S h₁) h₂ b
  logArea : ∀ b, ¬ C.home b → s.read b = s.disk b
  cached : ∀ b, C.home b → s.dirty b = false →
    s.read b = if s.phase.up then overlay (committed d₀ S h₁) h₂ b else s.disk b

variable {C : Config} {d d₀ : ℕ → Block} {S : ℕ → Bool} {h₁ h₂ : List Write} {s s' : State}
variable {o b c t : ℕ} {v : Block} {held : List ℕ} {l : Label}

/-! ## Reading -/

theorem read_bread : (s.bread b).read c = s.read c := by
  by_cases hc : c = b
  · simp [State.read, State.bread, hc]
  · simp [State.read, State.bread, hc]

theorem read_bwrite : (s.bwrite b v).read c = update s.read b v c := by
  by_cases hc : c = b
  · simp [State.read, State.bwrite, hc]
  · simp [State.read, State.bwrite, hc]

theorem disk_bwrite (h : c ≠ b) : (s.bwrite b v).disk c = s.disk c := update_of_ne h ..

/-- A write goes to the cache and to the disk. -/
theorem read_bwrite_eq (h : s.read c = s.disk c) :
    (s.bwrite b v).read c = (s.bwrite b v).disk c := by
  rw [read_bwrite]
  by_cases hc : c = b
  · rw [hc, update_self]
    exact (update_self b v s.disk).symm
  · rw [update_of_ne hc, disk_bwrite hc, h]

theorem not_home_start : ¬ C.home C.start :=
  fun h => h ⟨le_rfl, Nat.lt_add_of_pos_right C.size_pos⟩

theorem not_home_log {i : ℕ} (hi : i + 1 < C.size) : ¬ C.home (C.start + i + 1) :=
  fun h => h ⟨by omega, by omega⟩

theorem home_ne_start (h : C.home c) : c ≠ C.start := fun he => not_home_start (he ▸ h)

theorem getHead_writeHead (h : s.lh.length < NWORD) :
    getHead ((s.writeHead C).disk C.start) = s.lh := by
  rw [show (s.writeHead C).disk C.start = setHead (s.read C.start) s.lh from update_self ..]
  exact getHead_setHead _ h

/-! ## Which operations are in -/

/-- Operations outside `S` that have been cut off may be put in or not. -/
theorem committed_congr {S' : ℕ → Bool} (h : ∀ w ∈ h₁, S' w.op = S w.op) :
    committed d₀ S' h₁ = committed d₀ S h₁ := by
  unfold committed
  rw [filter_congr h]

/-- The writes of the open transaction are committed together … -/
theorem committed_append (h : ∀ w ∈ h₂, S w.op = true) :
    committed d₀ S (h₁ ++ h₂) = overlay (committed d₀ S h₁) h₂ := by
  unfold committed overlay
  rw [filter_append, filter_eq_self.mpr h, Redo.replay_append]

/-- … or not at all. -/
theorem committed_append_of_false (h : ∀ w ∈ h₂, S w.op = false) :
    committed d₀ S (h₁ ++ h₂) = committed d₀ S h₁ := by
  have hnil : h₂.filter (fun w => S w.op) = [] :=
    filter_eq_nil_iff.mpr fun w hw => by
      rw [h w hw]
      nofun
  unfold committed
  rw [filter_append, hnil, append_nil]

/-- The set `S` with the operations that wait for `commit`. -/
def State.seal (s : State) (S : ℕ → Bool) : ℕ → Bool :=
  fun o => S o || s.op o = .ended || s.op o = .closing

theorem seal_iff : s.seal S o = true ↔ S o = true ∨ s.op o = .ended ∨ s.op o = .closing := by
  simp [State.seal, or_assoc]

section

variable (h : Atomic C d₀ S h₁ h₂ s)
include h

/-- No operation that was cut off comes in. -/
theorem Atomic.seal_past (w : Write) (hw : w ∈ h₁) : s.seal S w.op = S w.op := by
  cases hS : S w.op with
  | true => exact seal_iff.mpr (.inl hS)
  | false =>
    rw [← Bool.not_eq_true, seal_iff, hS]
    rcases h.past w hw hS with hp | hp <;> rw [hp] <;> simp

theorem Atomic.seal_over (o : ℕ) (ho : s.seal S o = true) : (s.op o).isOver = true := by
  rcases seal_iff.mp ho with hS | he | he
  · exact h.isOver o hS
  · rw [he]
    rfl
  · rw [he]
    rfl

/-- Outside the blocks that are logged nothing is changed. -/
theorem Atomic.overlay_of_notMem (hb : b ∉ s.lh) :
    overlay (committed d₀ S h₁) h₂ b = committed d₀ S h₁ b :=
  Redo.replay_of_ne fun w hw he => hb (he ▸ (h.current w hw).2.2)

/-- A running operation is not in `S`. -/
theorem Atomic.running (hop : s.op o = .running held) : S o = false := by
  by_contra hS
  have hov := h.isOver o (by simpa using hS)
  rw [hop] at hov
  cases hov

/-- **Whatever is neither changed nor pinned is on disk as it is in the cache.** -/
theorem Atomic.disk_of_unpinned (hup : s.phase.up = true) (hb : C.home b) (hpin : b ∉ s.pinned) :
    s.disk b = overlay (committed d₀ S h₁) h₂ b := by
  cases hphase : s.phase with
  | readHead | recover =>
    rw [hphase] at hup
    cases hup
  | normal | writeLog =>
    have hst := h.store
    rw [h.head (by rw [hphase]; rintro ⟨⟩), header, hphase] at hst
    have hlh : b ∉ s.lh := by rwa [pinned, hphase] at hpin
    rw [h.overlay_of_notMem hlh]
    exact hst.of_nil hb
  | installTrans =>
    have hst := h.store
    rw [h.head (by rw [hphase]; rintro ⟨⟩), header, hphase] at hst
    rw [(h.closed (by rw [hphase]; rfl)).1]
    exact hst.store b hb (by rwa [pinned, hphase] at hpin)
  | finish =>
    have hst := h.store
    rw [h.head (by rw [hphase]; rintro ⟨⟩), header, hphase] at hst
    rw [(h.closed (by rw [hphase]; rfl)).1]
    exact hst.of_nil hb

/-! ## Steps of operations -/

/-- Operations begin, or go on. -/
theorem Atomic.setOp {op : ℕ → OpState} (hop : ∀ o, op o = s.op o ∨
      (s.op o = .idle ∨ s.Running o) ∧ ∃ held, op o = .running held) :
    Atomic C d₀ S h₁ h₂ { s with op := op } := by
  have hkeep : ∀ o, s.op o ≠ .idle → ¬ s.Running o → op o = s.op o := fun o h1 h2 =>
    (hop o).resolve_right fun hr => hr.1.elim h1 h2
  have hback : ∀ o, (∀ held, op o ≠ .running held) → op o = s.op o := fun o hr =>
    (hop o).resolve_right fun hrun => hrun.2.elim hr
  refine { h with
    past := fun w hw hS => ?_, current := fun w hw => ?_, isOver := fun o hS => ?_,
    durable := fun o ho => h.durable o ?_, closed := fun hopen => ?_ }
  · have hpast := h.past w hw hS
    dsimp only
    rwa [hkeep w.op]
    · rcases hpast with hp | hp <;> rw [hp] <;> rintro ⟨⟩
    · rintro ⟨held, hr⟩
      rcases hpast with hp | hp <;> rw [hp] at hr <;> cases hr
  · obtain ⟨hcur, hS, hlog⟩ := h.current w hw
    refine ⟨?_, hS, hlog⟩
    rcases hop w.op with he | ⟨-, hr⟩
    · show (∃ held, op w.op = _) ∨ op w.op = _ ∨ op w.op = _
      rw [he]
      exact hcur
    · exact .inl hr
  · have hov := h.isOver o hS
    dsimp only
    rwa [hkeep o]
    · intro hi
      rw [hi] at hov
      cases hov
    · rintro ⟨held, hr⟩
      rw [hr] at hov
      cases hov
  · dsimp only at ho
    rw [← hback o (by rw [ho]; rintro _ ⟨⟩), ho]
  · refine ⟨(h.closed hopen).1, fun o ho => (h.closed hopen).2 o ?_⟩
    dsimp only at ho
    rw [← hback o (by rcases ho with ho | ho <;> rw [ho] <;> rintro _ ⟨⟩)]
    exact ho

/-- A block is read. -/
theorem Atomic.fill : Atomic C d₀ S h₁ h₂ (s.bread b) :=
  { h with
    logArea := fun c hc => read_bread.trans (h.logArea c hc)
    cached := fun c hc hd => read_bread.trans (h.cached c hc hd) }

theorem Atomic.modify (hb : C.home b) : Atomic C d₀ S h₁ h₂ (s.modify b v) := by
  have hread : ∀ c, c ≠ b → (s.modify b v).read c = s.read c := fun c hc => by
    simp [State.read, State.modify, hc]
  refine { h with logArea := fun c hc => ?_, cached := fun c hc hd => ?_ }
  · rw [hread c (fun he => hc (he ▸ hb))]
    exact h.logArea c hc
  · by_cases hcb : c = b
    · simp [State.modify, hcb] at hd
    · rw [hread c hcb]
      exact h.cached c hc (by simpa [State.modify, hcb] using hd)

/-- `log_write` adds to the open transaction. -/
theorem Atomic.logWrite (hc : Control C s) (hp : (s.logWrite C o b).panic = none)
    (hop : s.op o = .running held) :
    Atomic C d₀ S h₁ (h₂ ++ [⟨o, b, s.read b⟩]) (s.logWrite C o b) := by
  obtain ⟨-, -, -, heq⟩ := logWrite_eq hp
  rw [heq]
  have hphase := (hc.normal ⟨held, hop⟩).1
  have hmem : ∀ c, c ∈ s.lh ∨ c = b → c ∈ if b ∈ s.lh then s.lh else s.lh ++ [b] := by
    intro c hcm
    split_ifs with hb
    · exact hcm.elim id fun he => he ▸ hb
    · rwa [mem_append, mem_singleton]
  refine { h with
    split := ?_, current := fun w hw => ?_, closed := fun hopen => ?_, head := fun hne => ?_,
    written := fun o t hph => ?_, cached := fun c hcm hd => ?_ }
  · rw [h.split, append_assoc]
  · rcases mem_append.mp hw with hw | hw
    · obtain ⟨hcur, hS, hlog⟩ := h.current w hw
      exact ⟨hcur, hS, hmem _ (.inl hlog)⟩
    · obtain rfl := mem_singleton.mp hw
      exact ⟨.inl ⟨held, hop⟩, h.running hop, hmem _ (.inr rfl)⟩
  · rw [show s.phase = .normal from hphase] at hopen
    cases hopen
  · rw [h.head hne, header, header, hphase]
  · rw [show s.phase = .normal from hphase] at hph
    cases hph
  · show s.read c = _
    have hup : s.phase.up = true := by rw [hphase]; rfl
    rw [show overlay (committed d₀ S h₁) (h₂ ++ [⟨o, b, s.read b⟩]) =
      update (overlay (committed d₀ S h₁) h₂) b (s.read b) from Redo.replay_snoc _]
    rw [if_pos hup]
    by_cases hcb : c = b
    · rw [hcb, update_self]
    · rw [update_of_ne hcb]
      have hcl := h.cached c hcm (by simpa [hcb] using hd)
      rwa [if_pos hup] at hcl

/-- `end_op` that leaves the transaction open. -/
theorem Atomic.endOp (hop : s.op o = .running []) {st : OpState} (hst : st = .ended ∨ st = .closing)
    {ph : Phase} (hph : s.phase = .normal) (hph' : ph = .normal ∨ ph = .writeLog o 0) (n : ℕ) :
    Atomic C d₀ S h₁ h₂ { s with outstanding := n, phase := ph, op := update s.op o st } := by
  have hself : ∀ o', update s.op o st o' = s.op o' ∨ o' = o := fun o' => by
    by_cases ho : o' = o
    · exact .inr ho
    · exact .inl (update_of_ne ho ..)
  refine ⟨h.split, fun w hw hS => ?_, fun w hw => ?_, fun o' hS => ?_, fun o' ho' => ?_,
    fun hopen => ?_, fun _ => ?_, h.fits, ?_, fun o' t hw i _ hi => ?_, h.logArea,
    fun b hb hd => ?_⟩
  · rcases hself w.op with he | he
    · show update s.op o st w.op = _ ∨ update s.op o st w.op = _
      rw [he]
      exact h.past w hw hS
    · have hpast := h.past w hw hS
      rw [he, hop] at hpast
      rcases hpast with hc | hc <;> cases hc
  · obtain ⟨hcur, hS, hlog⟩ := h.current w hw
    refine ⟨?_, hS, hlog⟩
    rcases hself w.op with he | he
    · show (∃ held, update s.op o st w.op = _) ∨ update s.op o st w.op = _ ∨
        update s.op o st w.op = _
      rw [he]
      exact hcur
    · refine .inr ?_
      show update s.op o st w.op = _ ∨ update s.op o st w.op = _
      rwa [he, update_self]
  · have hov := h.isOver o' hS
    rcases hself o' with he | rfl
    · show (update s.op o st o').isOver = true
      rw [he]
      exact hov
    · rw [hop] at hov
      cases hov
  · rcases hself o' with he | rfl
    · exact h.durable o' (he ▸ ho')
    · have hst' : st = .committed := by simpa using ho'
      rcases hst with rfl | rfl <;> cases hst'
  · rcases hph' with rfl | rfl <;> cases hopen
  · have hhead := h.head (by rw [hph]; nofun)
    rw [header, hph] at hhead
    rcases hph' with rfl | rfl <;> exact hhead
  · have hstore := h.store
    rw [hph] at hstore
    rcases hph' with rfl | rfl <;> exact hstore
  · rcases hph' with rfl | rfl
    · cases hw
    · cases hw
      exact absurd hi (Nat.not_lt_zero i)
  · have hcl := h.cached b hb hd
    rw [hph] at hcl
    rcases hph' with rfl | rfl <;> exact hcl

/-- **Giving up a buffer that has no references.** -/
theorem Atomic.evict (hc : Control C s) (href : s.refcnt b = 0) :
    Atomic C d₀ S h₁ h₂ { s with cache := update s.cache b none } := by
  have hread : ∀ c, read { s with cache := update s.cache b none } c =
      if c = b then s.disk b else s.read c := fun c => by
    by_cases hcb : c = b
    · simp [State.read, hcb]
    · simp [State.read, hcb]
  refine { h with logArea := fun c hcm => ?_, cached := fun c hcm hd => ?_ }
  · rw [hread]
    split_ifs with hcb
    · rw [hcb]
    · exact h.logArea c hcm
  · rw [hread]
    split_ifs with hcb hup hup
    · have hpin : b ∉ s.pinned := fun hp => by
        have hr := hc.ref b
        rw [if_pos hp, href] at hr
        omega
      rw [hcb]
      exact h.disk_of_unpinned hup (hcb ▸ hcm) hpin
    · rw [hcb]
    · have hcl := h.cached c hcm hd
      rwa [if_pos hup] at hcl
    · have hcl := h.cached c hcm hd
      rwa [if_neg hup] at hcl

/-! ## Steps of `commit` -/

/-- `write_log`. -/
theorem Atomic.logBlock (hc : Control C s) (hphase : s.phase = .writeLog o t)
    (hb : s.lh[t]? = some b) :
    Atomic C d₀ S h₁ h₂ { s.logBlock C t b with phase := .writeLog o (t + 1) } := by
  have hup : s.phase.up = true := by rw [hphase]; rfl
  obtain ⟨-, hhome, -, _⟩ := hc.log hup
  obtain ⟨hlt, hget⟩ := List.getElem?_eq_some_iff.mp hb
  have hbh : C.home b := hhome b (hget ▸ getElem_mem hlt)
  have hz := hc.quiet (by rw [hphase]; nofun)
  have hne : ∀ {c}, C.home c → c ≠ C.start + t + 1 := fun hcm he =>
    not_home_log (by omega) (he ▸ hcm)
  have hval : s.read b = overlay (committed d₀ S h₁) h₂ b := by
    have hcl := h.cached b hbh (hc.clean hz b)
    rwa [if_pos hup] at hcl
  have hstart : (s.logBlock C t b).disk C.start = s.disk C.start := disk_bwrite (by omega)
  have hhead : getHead (s.disk C.start) = [] := by
    rw [h.head (by rw [hphase]; nofun), header, hphase]
  have hstore := h.store
  rw [hhead, hphase] at hstore
  refine { h with
    closed := nofun, head := fun _ => ?_, fits := ?_, store := ?_,
    written := fun o' t' ht i c hi hic => ?_
    logArea := fun c hcm => read_bwrite_eq (read_bread.trans (h.logArea c hcm))
    cached := fun c hcm hd => ?_ }
  · dsimp only
    rw [hstart, hhead]
    rfl
  · dsimp only
    rw [hstart]
    exact h.fits
  · dsimp only
    rw [hstart, hhead]
    exact .nil fun c hcm => (disk_bwrite (hne hcm)).trans (hstore.of_nil hcm)
  · have htt : t + 1 = t' := by
      injection ht
    by_cases hit : i = t
    · rw [hit] at hic ⊢
      cases hb.symm.trans hic
      exact (update_self ..).trans hval
    · exact (disk_bwrite (by omega)).trans (h.written o t hphase i c (by omega) hic)
  · have hcl := h.cached c hcm hd
    rw [if_pos hup] at hcl
    exact (read_bwrite.trans (update_of_ne (hne hcm) ..)).trans (read_bread.trans hcl)

end

/-- The phases from which blocks are installed, and where that leads. -/
inductive Installing : Phase → ℕ → Phase → Phase → Prop
  | commit (o t : ℕ) : Installing (.installTrans o t) t (.installTrans o (t + 1)) (.finish o)
  | recover (t : ℕ) : Installing (.recover t) t (.recover (t + 1)) .normal

/-- What is known of these phases. -/
theorem Installing.spec {p p₁ p₂ : Phase} (h : Installing p t p₁ p₂) :
    (p ≠ .readHead ∧ p.cursor = t ∧ p.openTrans = false) ∧
    (p₁.cursor = t + 1 ∧ p₁.up = p.up ∧ ∀ o t', p₁ ≠ .writeLog o t') ∧
    (p₂.up = true ∧ ∀ o t', p₂ ≠ .writeLog o t') ∧
    (∀ s : State, s.phase = p ∨ s.phase = p₁ → s.header = s.lh) ∧
    ∀ s : State, s.phase = p₂ → s.header = [] := by
  cases h <;> exact ⟨⟨nofun, rfl, rfl⟩, ⟨rfl, rfl, nofun⟩, ⟨rfl, nofun⟩,
    fun s hs => by rcases hs with hs | hs <;> rw [header, hs], fun s hs => by rw [header, hs]⟩

section

variable (h : Atomic C d₀ S h₁ h₂ s)
include h

variable {p₁ p₂ : Phase}

/-- What holds while blocks are installed. -/
theorem Atomic.installing (hphase : Installing s.phase t p₁ p₂) :
    getHead (s.disk C.start) = s.lh ∧ h₂ = [] ∧
      Redo.Recovers C.home s.disk s.lh t (fun i => s.disk (C.start + i + 1))
        (committed d₀ S h₁) := by
  obtain ⟨⟨hne, hcursor, hopen⟩, -, -, hheader, -⟩ := hphase.spec
  have hhead := (h.head hne).trans (hheader s (.inl rfl))
  have hstore := h.store
  rw [hhead, hcursor] at hstore
  exact ⟨hhead, (h.closed hopen).1, hstore⟩

/-- One round of `install_trans`. -/
theorem Atomic.install (hphase : Installing s.phase t p₁ p₂) (hb : s.lh[t]? = some b) (r : ℕ → ℕ) :
    Atomic C d₀ S h₁ h₂ { s.installBlock C t b with refcnt := r, phase := p₁ } := by
  obtain ⟨hhead, rfl, hstore⟩ := h.installing hphase
  obtain ⟨hbh, hsize⟩ := h.fits t b (by rw [hhead, hb])
  have hval : s.read (C.start + t + 1) = s.disk (C.start + t + 1) :=
    h.logArea _ (not_home_log hsize)
  have hdisk : ∀ c, ¬ C.home c → (s.installBlock C t b).disk c = s.disk c :=
    fun c hcm => disk_bwrite fun he => hcm (he ▸ hbh)
  have hstart := hdisk C.start not_home_start
  obtain ⟨⟨-, -, hopen⟩, ⟨hcursor, hup, hwl⟩, -, hheader, -⟩ := hphase.spec
  refine { h with
    current := nofun, closed := fun _ => h.closed hopen, head := fun _ => ?_, fits := ?_,
    store := ?_, written := fun o' t' ht => absurd ht (hwl o' t')
    logArea := fun c hcm => read_bwrite_eq (read_bread.trans (h.logArea c hcm))
    cached := fun c hcm hd => ?_ }
  · rw [hheader _ (.inr rfl)]
    dsimp only
    rw [hstart, hhead]
    rfl
  · dsimp only
    rw [hstart]
    exact h.fits
  · dsimp only
    rw [hstart, hhead, hcursor]
    have hinst := hstore.install hb
    rw [← hval] at hinst
    refine hinst.congr (fun _ _ => rfl) fun i hi => hdisk _ (not_home_log ?_)
    exact (h.fits i _ (by rw [hhead]; exact getElem?_eq_getElem hi)).2
  · have hcl := h.cached c hcm hd
    dsimp only
    rw [hup]
    split_ifs at hcl ⊢
    · by_cases hcb : c = b
      · subst hcb
        exact ((read_bwrite.trans (update_self ..)).trans hval).trans (hstore.logged t _ hb)
      · exact (read_bwrite.trans (update_of_ne hcb ..)).trans (read_bread.trans hcl)
    · exact read_bwrite_eq (read_bread.trans hcl)

/-- Clearing the header when every block has been installed. -/
theorem Atomic.clear (hphase : Installing s.phase t p₁ p₂) (hend : s.lh[t]? = none) :
    Atomic C d₀ S h₁ h₂ { { s with lh := [] }.writeHead C with phase := p₂ } := by
  obtain ⟨-, rfl, hstore⟩ := h.installing hphase
  have hnil : getHead (({ s with lh := [] }.writeHead C).disk C.start) = [] :=
    getHead_writeHead (by decide : 0 < NWORD)
  obtain ⟨⟨-, -, hopen⟩, -, ⟨hup, hwl⟩, -, hheader⟩ := hphase.spec
  refine { h with
    current := nofun, closed := fun _ => h.closed hopen, head := fun _ => ?_,
    fits := fun i c hic => ?_, store := ?_, written := fun o' t' ht => absurd ht (hwl o' t')
    logArea := fun c hcm => read_bwrite_eq (h.logArea c hcm), cached := fun c hcm hd => ?_ }
  · rw [hheader _ rfl]
    exact hnil
  · dsimp only at hic
    rw [hnil] at hic
    cases hic
  · dsimp only
    rw [hnil]
    exact .nil fun c hcm => (disk_bwrite (home_ne_start hcm)).trans (hstore.installed hend hcm)
  · have hcl := h.cached c hcm hd
    rw [if_pos hup]
    refine (read_bwrite.trans (update_of_ne (home_ne_start hcm) ..)).trans ?_
    split_ifs at hcl
    · exact hcl
    · exact hcl.trans (hstore.installed hend hcm)

/-- **The commit point**: the write of the header puts the operations of the open
transaction in, all of them. -/
theorem Atomic.writeHead (hc : Control C s) (hphase : s.phase = .writeLog o t)
    (hend : s.lh[t]? = none) : Atomic C d₀ (s.seal S) (h₁ ++ h₂) []
      { s.writeHead C with phase := .installTrans o 0 } := by
  have hup : s.phase.up = true := by rw [hphase]; rfl
  obtain ⟨-, hhome, hlen, _⟩ := hc.log hup
  have hz := hc.quiet (by rw [hphase]; nofun)
  have hcur : ∀ w ∈ h₂, s.seal S w.op = true := fun w hw => by
    refine seal_iff.mpr (.inr ?_)
    exact (h.current w hw).1.resolve_left (hc.not_running hz w.op)
  have hcom : committed d₀ (s.seal S) (h₁ ++ h₂) = overlay (committed d₀ S h₁) h₂ := by
    rw [committed_append hcur, committed_congr h.seal_past]
  have hlh : getHead ((s.writeHead C).disk C.start) = s.lh :=
    getHead_writeHead (hlen.trans_lt (by decide))
  have hstore := h.store
  rw [h.head (by rw [hphase]; nofun), header, hphase] at hstore
  refine ⟨?_, fun w hw hSw => ?_, nofun, h.seal_over,
    fun o' ho' => seal_iff.mpr (.inl (h.durable o' ho')),
    fun _ => ⟨rfl, fun o' ho' => seal_iff.mpr (.inr ho')⟩, fun _ => hlh, fun i c hic => ?_, ?_,
    nofun, fun c hcm => read_bwrite_eq (h.logArea c hcm), fun c hcm hd => ?_⟩
  · rw [append_nil]
    exact h.split
  · rcases mem_append.mp hw with hw | hw
    · exact h.past w hw ((h.seal_past w hw).symm.trans hSw)
    · rw [hcur w hw] at hSw
      cases hSw
  · dsimp only at hic
    rw [hlh] at hic
    obtain ⟨hi, hget⟩ := List.getElem?_eq_some_iff.mp hic
    exact ⟨hhome c (hget ▸ getElem_mem hi), by omega⟩
  · dsimp only
    rw [hlh, hcom]
    refine .commit (fun c hcm => ?_) (fun c _ hcl => h.overlay_of_notMem hcl) fun i c hic => ?_
    · exact (disk_bwrite (home_ne_start hcm)).trans (hstore.of_nil hcm)
    · refine (disk_bwrite (by omega)).trans (h.written o t hphase i c ?_ hic)
      exact (List.getElem?_eq_some_iff.mp hic).1.trans_le (List.getElem?_eq_none_iff.mp hend)
  · have hcl := h.cached c hcm hd
    rw [if_pos hup, ← hcom] at hcl
    exact (read_bwrite.trans (update_of_ne (home_ne_start hcm) ..)).trans hcl

/-- `commit` with nothing to write. -/
theorem Atomic.skip (hphase : s.phase = .writeLog o t) (hlh : s.lh = []) :
    Atomic C d₀ (s.seal S) h₁ [] { s with phase := .finish o } := by
  have hnil : h₂ = [] := eq_nil_iff_forall_not_mem.mpr fun w hw => by
    have hmem := (h.current w hw).2.2
    rw [hlh] at hmem
    exact absurd hmem not_mem_nil
  subst hnil
  have hcom : committed d₀ (s.seal S) h₁ = committed d₀ S h₁ := committed_congr h.seal_past
  have hhead := h.head (by rw [hphase]; nofun)
  rw [header, hphase] at hhead
  have hstore := h.store
  rw [hphase, ← hcom] at hstore
  refine ⟨h.split, fun w hw hSw => h.past w hw ((h.seal_past w hw).symm.trans hSw), nofun,
    h.seal_over, fun o' ho' => seal_iff.mpr (.inl (h.durable o' ho')),
    fun _ => ⟨rfl, fun o' ho' => seal_iff.mpr (.inr ho')⟩, fun _ => hhead, h.fits, hstore,
    nofun, h.logArea, fun c hcm hd => ?_⟩
  have hcl := h.cached c hcm hd
  rwa [hphase, ← hcom] at hcl

/-- Back in `end_op`. -/
theorem Atomic.finish (hphase : s.phase = .finish o) :
    Atomic C d₀ S h₁ h₂ { s with phase := .normal, op := fun o => (s.op o).finish } := by
  obtain ⟨rfl, hall⟩ := h.closed (by rw [hphase]; rfl)
  have hhead := h.head (by rw [hphase]; nofun)
  rw [header, hphase] at hhead
  have hstore := h.store
  rw [hphase] at hstore
  refine ⟨h.split, fun w hw hS => ?_, nofun, fun o' hS => ?_, fun o' ho' => ?_, nofun,
    fun _ => hhead, h.fits, hstore, nofun, h.logArea, fun c hcm hd => ?_⟩
  · show (s.op w.op).finish = .lost ∨ (s.op w.op).finish = .cutOff
    rcases h.past w hw hS with hp | hp <;> rw [hp]
    · exact .inl rfl
    · exact .inr rfl
  · have hov := h.isOver o' hS
    show ((s.op o').finish).isOver = true
    cases hs : s.op o' <;> rw [hs] at hov <;> first | rfl | cases hov
  · have hfin : (s.op o').finish = .committed := ho'
    cases hs : s.op o' with
    | ended => exact hall o' (.inl hs)
    | closing => exact hall o' (.inr hs)
    | committed => exact h.durable o' hs
    | idle | running | cutOff | lost =>
      rw [hs] at hfin
      cases hfin
  · have hcl := h.cached c hcm hd
    rwa [hphase] at hcl

/-! ## Crashes and recovery -/

/-- **A crash drops the open transaction.** -/
theorem Atomic.crash : Atomic C d₀ S (h₁ ++ h₂) [] s.crash := by
  have hop : ∀ o, s.crash.op o = (s.op o).crash := fun _ => rfl
  have hcom : committed d₀ S (h₁ ++ h₂) = committed d₀ S h₁ :=
    committed_append_of_false fun w hw => (h.current w hw).2.1
  refine ⟨?_, fun w hw hS => ?_, nofun, fun o hS => ?_, fun o ho => ?_, fun _ => ⟨rfl, ?_⟩,
    absurd rfl, h.fits, ?_, nofun, fun _ _ => rfl, fun _ _ _ => rfl⟩
  · rw [append_nil]
    exact h.split
  · rw [hop]
    rcases mem_append.mp hw with hw | hw
    · rcases h.past w hw hS with hp | hp <;> rw [hp]
      · exact .inl rfl
      · exact .inr rfl
    · rcases (h.current w hw).1 with ⟨_, hr⟩ | hr | hr <;> rw [hr]
      · exact .inl rfl
      · exact .inr rfl
      · exact .inr rfl
  · have hov := h.isOver o hS
    rw [hop]
    cases hs : s.op o <;> rw [hs] at hov <;> first | rfl | cases hov
  · rw [hop] at ho
    refine h.durable o ?_
    cases hs : s.op o <;> rw [hs] at ho <;> first | rfl | cases ho
  · intro o ho
    rw [hop] at ho
    rcases ho with ho | ho <;> cases hs : s.op o <;> rw [hs] at ho <;> cases ho
  · rw [hcom]
    exact h.store.restart

/-- `read_head`. -/
theorem Atomic.readHead (hphase : s.phase = .readHead) : Atomic C d₀ S h₁ h₂
      { s.bread C.start with lh := getHead (s.read C.start), phase := .recover 0 } := by
  obtain ⟨rfl, hall⟩ := h.closed (by rw [hphase]; rfl)
  have hstore := h.store
  rw [hphase] at hstore
  refine { h.fill with
    current := nofun, closed := fun _ => ⟨rfl, hall⟩, head := fun _ => ?_, store := hstore,
    written := nofun, cached := fun c hcm hd => ?_ }
  · show getHead (s.disk C.start) = getHead (s.read C.start)
    rw [h.logArea C.start not_home_start]
  · have hcl := h.cached c hcm hd
    rw [hphase] at hcl
    exact read_bread.trans hcl

/-- The steps of a system that boots, and crashes while it does. -/
def Recovering (_ : State) : Label → Prop
  | .recover | .fill _ | .evict _ | .crash => True
  | .beginOp _ | .bread _ _ | .modify _ _ _ | .logWrite _ _ | .brelse _ _ | .endOp _ | .commit =>
    False

instance (s : State) (l : Label) : Decidable (Recovering s l) := by
  unfold Recovering
  split <;> infer_instance

end

/-- **Recovering does not change which operations are in.** -/
theorem Atomic.recovering (h : Atomic C d₀ S h₁ [] s) (hc : Control C s) (hl : Recovering s l)
    (hstep : step C s l = some s') : Atomic C d₀ S h₁ [] s' := by
  obtain ⟨hcase, -⟩ := step_cases hstep
  cases hcase with
  | readHead hphase => exact h.readHead hphase
  | reinstall hphase hb => exact h.install (by rw [hphase]; exact .recover _) hb s.refcnt
  | reclear hphase hend => exact h.clear (by rw [hphase]; exact .recover _) hend
  | fill => exact h.fill
  | evict href => exact h.evict hc href
  | crash =>
    have hcrash := h.crash
    rwa [append_nil] at hcrash
  | _ => cases hl

/-- **Every step keeps the invariant of contents**, for some set of operations. -/
theorem Atomic.step (h : Atomic C d₀ S h₁ h₂ s) (hc : Control C s)
    (hstep : Journal.step C s l = some s') : ∃ S' h₁' h₂', Atomic C d₀ S' h₁' h₂' s' := by
  obtain ⟨hcase, hp⟩ := step_cases hstep
  have hupdate : ∀ {o} held (st : OpState), s.op o = .idle ∨ s.op o = .running held →
      (∃ held, st = .running held) → ∀ o', update s.op o st o' = s.op o' ∨
        (s.op o' = .idle ∨ s.Running o') ∧ ∃ held, update s.op o st o' = .running held := by
    intro o held st ho hst o'
    by_cases ho' : o' = o
    · subst ho'
      rw [update_self]
      exact .inr ⟨ho.imp id fun hr => ⟨held, hr⟩, hst⟩
    · exact .inl (update_of_ne ho' ..)
  cases hcase with
  | beginOp _ hop _ =>
    exact ⟨S, h₁, h₂, { h.setOp (hupdate [] _ (.inl hop) ⟨[], rfl⟩) with }⟩
  | bread hop _ _ =>
    exact ⟨S, h₁, h₂, { h.fill.setOp (hupdate _ _ (.inr hop) ⟨_, rfl⟩) with }⟩
  | brelse hop _ _ =>
    exact ⟨S, h₁, h₂, { h.setOp (hupdate _ _ (.inr hop) ⟨_, rfl⟩) with }⟩
  | modify hop hb => exact ⟨S, h₁, h₂, h.modify (hc.held _ _ _ hop hb).2⟩
  | @logWrite o b _ hop _ =>
    by_cases hpanic : (s.logWrite C o b).panic = none
    · exact ⟨S, h₁, _, h.logWrite hc hpanic hop⟩
    · obtain ⟨_, hq⟩ := logWrite_panic hpanic (hp nofun)
      rw [hq]
      exact ⟨S, h₁, h₂, { h with }⟩
  | @endOp o hop =>
    have hphase := (hc.normal ⟨[], hop⟩).1
    rcases endOp_eq hc hop with ⟨-, heq⟩ | ⟨-, heq⟩
    · have hclosing := h.endOp hop (.inr rfl) hphase (.inr rfl) 0
      rw [heq]
      split_ifs with hlh
      · exact ⟨_, h₁, [], hclosing.skip rfl hlh⟩
      · exact ⟨S, h₁, h₂, hclosing⟩
    · rw [heq]
      exact ⟨S, h₁, h₂, h.endOp hop (.inl rfl) hphase (.inl hphase) _⟩
  | logBlock hphase hb => exact ⟨S, h₁, h₂, h.logBlock hc hphase hb⟩
  | writeHead hphase hend => exact ⟨_, _, [], h.writeHead hc hphase hend⟩
  | install hphase hb =>
    exact ⟨S, h₁, h₂, h.install (by rw [hphase]; exact .commit _ _) hb _⟩
  | clear hphase hend => exact ⟨S, h₁, h₂, h.clear (by rw [hphase]; exact .commit _ _) hend⟩
  | finish hphase => exact ⟨S, h₁, h₂, h.finish hphase⟩
  | readHead hphase => exact ⟨S, h₁, h₂, h.readHead hphase⟩
  | reinstall hphase hb =>
    exact ⟨S, h₁, h₂, h.install (by rw [hphase]; exact .recover _) hb s.refcnt⟩
  | reclear hphase hend => exact ⟨S, h₁, h₂, h.clear (by rw [hphase]; exact .recover _) hend⟩
  | fill => exact ⟨S, h₁, h₂, h.fill⟩
  | evict href => exact ⟨S, h₁, h₂, h.evict hc href⟩
  | crash => exact ⟨S, _, [], h.crash⟩

/-! ## Booting -/

/-- **A system that boots**, from any disk: the buffers are as on disk, and when it
is up the log is empty. -/
structure Booting (C : Config) (s : State) : Prop where
  idle : ∀ o, s.op o = .idle
  hist : s.hist = []
  same : ∀ b, s.read b = s.disk b
  phase : s.phase.up = false ∨ s.phase = .normal ∧ getHead (s.disk C.start) = []

theorem Booting.step (h : Booting C s) (hl : Recovering s l)
    (hstep : Journal.step C s l = some s') :
    Booting C s' := by
  obtain ⟨hcase, -⟩ := step_cases hstep
  cases hcase with
  | readHead => exact ⟨h.idle, h.hist, fun c => read_bread.trans (h.same c), .inl rfl⟩
  | reinstall _ _ =>
    exact ⟨h.idle, h.hist, fun c => read_bwrite_eq (read_bread.trans (h.same c)), .inl rfl⟩
  | reclear _ _ =>
    exact ⟨h.idle, h.hist, fun c => read_bwrite_eq (h.same c),
      .inr ⟨rfl, getHead_writeHead (s := { s with lh := [] }) (by decide : 0 < NWORD)⟩⟩
  | fill => exact ⟨h.idle, h.hist, fun c => read_bread.trans (h.same c), h.phase⟩
  | @evict b _ =>
    refine ⟨h.idle, h.hist, fun c => ?_, h.phase⟩
    by_cases hcb : c = b
    · simp [State.read, hcb]
    · have hs := h.same c
      simpa [State.read, hcb] using hs
  | crash =>
    refine ⟨fun o => ?_, h.hist, fun _ => rfl, .inl rfl⟩
    show (s.op o).crash = .idle
    rw [h.idle o]
    rfl
  | _ => cases hl

/-- When it is up, nothing has been logged. -/
theorem Booting.atomic (h : Booting C s) (hphase : s.phase = .normal) :
    Atomic C s.disk (fun _ => false) [] [] s := by
  have hhead : getHead (s.disk C.start) = [] := by
    rcases h.phase with hup | ⟨-, hhead⟩
    · rw [hphase] at hup
      cases hup
    · exact hhead
  refine ⟨h.hist, nofun, nofun, nofun, fun o ho => ?_, fun hopen => ?_, fun _ => ?_, ?_, ?_,
    fun o t ht => ?_, fun b _ => h.same b, fun b _ _ => ?_⟩
  · rw [h.idle o] at ho
    cases ho
  · rw [hphase] at hopen
    cases hopen
  · rw [hhead, header, hphase]
  · rw [hhead]
    nofun
  · rw [hhead]
    exact .nil fun _ _ => rfl
  · rw [hphase] at ht
    cases ht
  · rw [h.same b, hphase]
    rfl

/-- **Recovery ends.** -/
theorem exists_recovered (hp : s.panic = none) (hphase : s.phase.up = false) :
    ∃ s', Lts.Runs (step C) Recovering s s' ∧ s'.phase = .normal := by
  have hrec : ∀ n s, s.panic = none → ∀ t, s.phase = .recover t → s.lh.length - t = n →
      ∃ s', Lts.Runs (step C) Recovering s s' ∧ s'.phase = .normal := by
    intro n
    -- one block is installed in each round
    induction n with
    | zero =>
      intro s hp t ht hn
      have hend : s.lh[t]? = none := getElem?_eq_none_iff.mpr (by omega)
      refine ⟨{ { s with lh := [] }.writeHead C with phase := .normal },
        (Lts.Runs.refl s).tail (l := .recover) trivial ?_, rfl⟩
      simp only [step, hp, recover, ht, hend]
      rfl
    | succ n ih =>
      intro s hp t ht hn
      have hget : s.lh[t]? = some s.lh[t] := getElem?_eq_getElem (by omega)
      obtain ⟨s', hrun, hs'⟩ := ih { s.installBlock C t s.lh[t] with phase := .recover (t + 1) } hp
        (t + 1) rfl (by show s.lh.length - (t + 1) = n; omega)
      refine ⟨s', ((Lts.Runs.refl s).tail (l := .recover) trivial ?_).trans hrun, hs'⟩
      simp only [step, hp, recover, ht, hget]
      rfl
  cases hs : s.phase with
  | readHead =>
    obtain ⟨s', hrun, hs'⟩ := hrec _
      { s.bread C.start with lh := getHead (s.read C.start), phase := .recover 0 } hp 0 rfl rfl
    refine ⟨s', ((Lts.Runs.refl s).tail (l := .recover) trivial ?_).trans hrun, hs'⟩
    simp only [step, hp, recover, hs]
    rfl
  | recover t => exact hrec _ s hp t hs rfl
  | _ =>
    rw [hs] at hphase
    cases hphase

/-- A system that recovers is not up, or has recovered. -/
theorem recovering_phase (hl : Recovering s l) (h : s.panic = none ∧
    (s.phase.up = false ∨ s.phase = .normal)) (hstep : step C s l = some s') :
    s'.panic = none ∧ (s'.phase.up = false ∨ s'.phase = .normal) := by
  obtain ⟨hcase, -⟩ := step_cases hstep
  cases hcase with
  | readHead | reinstall => exact ⟨h.1, .inl rfl⟩
  | reclear => exact ⟨h.1, .inr rfl⟩
  | fill | evict => exact h
  | crash => exact ⟨rfl, .inl rfl⟩
  | _ => cases hl

/-- **Crash atomicity.** A system boots from any disk; call `s₀` the state in which
it is up. From there any number of operations run in any interleaving, with
crashes and recoveries if need be. If it then crashes in state `s`, and recovers,
perhaps crashing again while it does, then there is a set of operations, among
them all for which `commit` has returned and none that has not called `end_op`,
such that the home blocks are those of `s₀` with all that these operations have
passed to `log_write`, in that order, and with nothing else. And the recovery
ends. -/
theorem crash_atomic (d : ℕ → Block) {s₀ : State}
    (hboot : Lts.Runs (step C) Recovering (boot d) s₀) (hup : s₀.phase = .normal)
    (hrun : Lts.Runs (step C) (fun _ _ => True) s₀ s) :
    ∃ S : ℕ → Bool, (∀ o, s.Durable o → S o = true) ∧ (∀ o, S o = true → (s.op o).isOver = true) ∧
      ∀ s', Lts.Runs (step C) Recovering s.crash s' →
        (∃ s'', Lts.Runs (step C) Recovering s' s'' ∧ s''.phase = .normal) ∧
        (s'.phase = .normal → ∀ b, C.home b →
          s'.disk b = overlay s₀.disk (s.hist.filter (fun w => S w.op)) b ∧
          ((∀ w ∈ s.hist, S w.op = true → w.blockno ≠ b) → s'.disk b = s₀.disk b)) := by
  have hctl : Control C s₀ ∧ Booting C s₀ :=
    Lts.Runs.invariant (I := fun s => Control C s ∧ Booting C s) hboot
      ⟨.boot_state d, fun _ => rfl, rfl, fun _ => rfl, .inl rfl⟩
      fun _ _ _ hI hl hstep => ⟨hI.1.step hstep, hI.2.step hl hstep⟩
  obtain ⟨hc, S, h₁, h₂, h⟩ : Control C s ∧ ∃ S h₁ h₂, Atomic C s₀.disk S h₁ h₂ s :=
    Lts.Runs.invariant (I := fun s => Control C s ∧ ∃ S h₁ h₂, Atomic C s₀.disk S h₁ h₂ s) hrun
      ⟨hctl.1, _, _, _, hctl.2.atomic hup⟩
      fun _ _ _ hI _ hstep => by
        obtain ⟨hc, S, h₁, h₂, h⟩ := hI
        exact ⟨hc.step hstep, h.step hc hstep⟩
  refine ⟨S, fun o ho => ?_, h.isOver, fun s' hrec => ⟨?_, fun hs' b hb => ?_⟩⟩
  · rcases ho with ho | ⟨⟨o', hfin⟩, ho⟩
    · exact h.durable o ho
    · exact (h.closed (by rw [hfin]; rfl)).2 o ho
  · have hphase := Lts.Runs.invariant
      (I := fun s : State => s.panic = none ∧ (s.phase.up = false ∨ s.phase = .normal)) hrec
      ⟨rfl, .inl rfl⟩ fun _ _ _ hI hl hstep => recovering_phase hl hI hstep
    rcases hphase.2 with hlow | hnormal
    · exact exists_recovered hphase.1 hlow
    · exact ⟨s', .refl s', hnormal⟩
  · have hfinal : Control C s' ∧ Atomic C s₀.disk S (h₁ ++ h₂) [] s' :=
      Lts.Runs.invariant (I := fun s => Control C s ∧ Atomic C s₀.disk S (h₁ ++ h₂) [] s) hrec
        ⟨hc.crash, h.crash⟩ fun _ _ _ hI hl hstep =>
          ⟨hI.1.step hstep, hI.2.recovering hI.1 hl hstep⟩
    have hstore := hfinal.2.store
    rw [hfinal.2.head (by rw [hs']; nofun), header, hs', ← h.split] at hstore
    have hdisk : s'.disk b = overlay s₀.disk (s.hist.filter (fun w => S w.op)) b := hstore.of_nil hb
    refine ⟨hdisk, fun hnot => hdisk.trans (Redo.replay_of_ne fun w hw => ?_)⟩
    obtain ⟨hw, hS⟩ := mem_filter.mp hw
    exact hnot w hw hS

/-- Operation `o` writes the blocks 100 and 101. -/
def writeBoth (o : ℕ) : List Label :=
  [.beginOp o, .bread o 100, .modify o 100 (fun _ => o + 1), .logWrite o 100, .brelse o 100,
    .bread o 101, .modify o 101 (fun _ => o + 1), .logWrite o 101, .brelse o 101]

/-- What two such operations have passed to `log_write`. -/
def bothWritten (hist : List Write) : Bool :=
  match hist with
  | [w₀, w₁, w₂, w₃] =>
    decide ((w₀.op, w₀.blockno, w₀.data 0) = (0, 100, 1) ∧
      (w₁.op, w₁.blockno, w₁.data 0) = (0, 101, 1) ∧
      (w₂.op, w₂.blockno, w₂.data 0) = (1, 100, 2) ∧ (w₃.op, w₃.blockno, w₃.data 0) = (1, 101, 2))
  | _ => false

/-- What is on disk, if the first of the two operations is there. -/
theorem overlay_bothWritten {d : ℕ → Block} {hist : List Write} {S : ℕ → Bool}
    (h : bothWritten hist = true) (h0 : S 0 = true) {b : ℕ} (hb : b = 100 ∨ b = 101) :
    overlay d (hist.filter fun w => S w.op) b 0 = if S 1 then 2 else 1 := by
  unfold bothWritten at h
  split at h
  · next w₀ w₁ w₂ w₃ =>
    simp only [Prod.mk.injEq, decide_eq_true_eq] at h
    obtain ⟨⟨ho₀, hb₀, hd₀⟩, ⟨ho₁, hb₁, hd₁⟩, ⟨ho₂, hb₂, hd₂⟩, ho₃, hb₃, hd₃⟩ := h
    cases hS : S 1 with
    | true =>
      rcases hb with rfl | rfl
      all_goals simp [overlay, Redo.replay, *]
    | false =>
      rcases hb with rfl | rfl
      all_goals simp [overlay, Redo.replay, *]
  · cases h

/-- An operation has been committed. A second one writes the same blocks, and the system
crashes before it calls `end_op`, in `s₁`, or in its `commit`, in `s₂`. In the first case it is
lost; in the second both of its blocks are there or none. -/
theorem crash_atomic_two_ops : ∃ s₀ s₁ s₂ s₁' s₂',
    Lts.Runs (step mkfs) Recovering (boot fun _ _ => 0) s₀ ∧ s₀.phase = .normal ∧
    Lts.Runs (step mkfs) (fun _ _ => True) s₀ s₁ ∧ Lts.Runs (step mkfs) (fun _ _ => True) s₁ s₂ ∧
    s₁.Durable 0 ∧ (s₁.op 1).isOver = false ∧ s₂.phase = .writeLog 1 1 ∧
    Lts.Runs (step mkfs) Recovering s₁.crash s₁' ∧ s₁'.phase = .normal ∧
    s₁'.disk 100 0 = 1 ∧ s₁'.disk 101 0 = 1 ∧
    Lts.Runs (step mkfs) Recovering s₂.crash s₂' ∧ s₂'.phase = .normal ∧
    (s₂'.disk 100 0 = 1 ∧ s₂'.disk 101 0 = 1 ∨ s₂'.disk 100 0 = 2 ∧ s₂'.disk 101 0 = 2) := by
  obtain ⟨s₀, hs₀, hup, s₁, hrun₁, hop, hop₁, hw₁, s₂, hrun₂, hop', hw₂, hphase⟩ :
      ∃ s₀ ∈ Lts.runIf (step mkfs) Recovering (boot fun _ _ => 0) [.recover, .recover],
      s₀.phase = .normal ∧ ∃ s₁ ∈ Lts.run (step mkfs) s₀
        (writeBoth 0 ++ .endOp 0 :: List.replicate 7 .commit ++ writeBoth 1),
      s₁.op 0 = .committed ∧ (s₁.op 1).isOver = false ∧ bothWritten s₁.hist = true ∧
      ∃ s₂ ∈ Lts.run (step mkfs) s₁ [.endOp 1, .commit],
      s₂.op 0 = .committed ∧ bothWritten s₂.hist = true ∧ s₂.phase = .writeLog 1 1 := by
    decide +kernel
  have hboot := Lts.runs_of_runIf hs₀
  replace hrun₁ := Lts.runs_of_run hrun₁
  replace hrun₂ := Lts.runs_of_run hrun₂
  obtain ⟨S, hdur, hover, hrec⟩ := crash_atomic _ hboot hup hrun₁
  obtain ⟨T, hdur', -, hrec'⟩ := crash_atomic _ hboot hup (hrun₁.trans hrun₂)
  obtain ⟨⟨s₁', hs₁, hp₁⟩, -⟩ := hrec s₁.crash (.refl _)
  obtain ⟨⟨s₂', hs₂, hp₂⟩, -⟩ := hrec' s₂.crash (.refl _)
  have hS : S 1 = false := by
    by_contra hc
    rw [hover 1 (by simpa using hc)] at hop₁
    cases hop₁
  have h₁ : ∀ b, b = 100 ∨ b = 101 → s₁'.disk b 0 = 1 := fun b hb => by
    rw [((hrec s₁' hs₁).2 hp₁ b (by rcases hb with rfl | rfl <;> nofun)).1,
      overlay_bothWritten hw₁ (hdur 0 (.inl hop)) hb, hS]
    rfl
  have h₂ : ∀ b, b = 100 ∨ b = 101 → s₂'.disk b 0 = if T 1 then 2 else 1 := fun b hb => by
    rw [((hrec' s₂' hs₂).2 hp₂ b (by rcases hb with rfl | rfl <;> nofun)).1,
      overlay_bothWritten hw₂ (hdur' 0 (.inl hop')) hb]
  refine ⟨s₀, s₁, s₂, s₁', s₂', hboot, hup, hrun₁, hrun₂, .inl hop, hop₁, hphase, hs₁, hp₁,
    h₁ 100 (.inl rfl), h₁ 101 (.inr rfl), hs₂, hp₂, ?_⟩
  rw [h₂ 100 (.inl rfl), h₂ 101 (.inr rfl)]
  cases T 1 with
  | true => exact .inr ⟨rfl, rfl⟩
  | false => exact .inl ⟨rfl, rfl⟩

end Xv6.Journal
