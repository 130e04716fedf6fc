import OsProject.Journal
import Mathlib.Algebra.BigOperators.Group.Finset.Basic
import Mathlib.Data.Finset.Card

/-!
# Who may do what in the log

The part of the log's invariant that does not speak of the contents of blocks
(`Control`): `outstanding` counts the operations between `begin_op` and
`end_op`, and there are none outside the normal phase; only they have buffers
locked or changed; a buffer has one reference for its lock and one for being in
the log; and a block that a running operation has logged is still in the log.

It follows that `commit` runs alone: while it writes blocks to the log, none of
them is being changed, and `install_trans` finds each of them pinned. Where no
operation is running most of the invariant is empty, and what is left of it is
in `Control.of_quiet`; the steps of `commit` and of recovery, and a crash, go
through that lemma.
-/

namespace Xv6.Journal

open State List

open Function (update update_of_ne update_self)

/-- Between `begin_op` and `end_op`. -/
def State.Running (s : State) (o : ℕ) : Prop := ∃ held, s.op o = .running held

/-- The blocks that `log_write` has pinned and `install_trans` has not
unpinned. -/
def State.pinned (s : State) : List ℕ :=
  match s.phase with
  | .readHead | .recover _ => []
  | .installTrans _ tail => s.lh.drop tail
  | .normal | .writeLog _ _ | .finish _ => s.lh

/-- The invariant of control. -/
structure Control (C : Config) (s : State) : Prop where
  count : ∃ R : Finset ℕ, (∀ o, o ∈ R ↔ s.Running o) ∧ R.card = s.outstanding
  quiet : s.phase ≠ .normal → s.outstanding = 0
  empty : s.phase = .normal ∨ (∃ o, s.phase = .finish o) → s.outstanding = 0 → s.lh = []
  dirty : ∀ b, s.dirty b = true → ∃ o held, s.op o = .running held ∧ b ∈ held
  held : ∀ o held b, s.op o = .running held → b ∈ held → s.locked b = true ∧ C.home b
  unique : ∀ o o' held held' b, s.op o = .running held → s.op o' = .running held' →
    b ∈ held → b ∈ held' → o = o'
  ref : ∀ b, s.refcnt b =
    (if b ∈ s.pinned then 1 else 0) + (if s.locked b = true then 1 else 0)
  log : s.phase.up = true → s.lh.Nodup ∧ (∀ b ∈ s.lh, C.home b) ∧ s.lh.length ≤ LOGSIZE ∧
    s.lh.length ≤ C.size - 1
  fresh : ∀ w ∈ s.hist, s.op w.op ≠ .idle
  inLog : ∀ w ∈ s.hist, s.Running w.op → w.blockno ∈ s.lh
  boot : s.phase.up = false → ∀ o, s.op o ≠ .ended ∧ s.op o ≠ .closing

variable {C : Config} {s s' : State} {o b : ℕ} {v : Block} {held : List ℕ} {l : Label}

/-- Who is running, when the state of one operation has changed. -/
theorem running_update {st : OpState} {o' : ℕ} : (∃ held, update s.op o st o' = .running held) ↔
      if o' = o then ∃ held, st = .running held else s.Running o' := by
  split_ifs with ho
  · rw [ho, update_self]
  · rw [update_of_ne ho]
    rfl

/-- **Operations run in the normal phase only.** -/
theorem Control.normal (h : Control C s) (ho : s.Running o) :
    s.phase = .normal ∧ 1 ≤ s.outstanding := by
  obtain ⟨_, hR, hcard⟩ := h.count
  have hpos : 1 ≤ s.outstanding := by
    rw [← hcard]
    exact Finset.card_pos.mpr ⟨o, (hR o).mpr ho⟩
  exact ⟨by_contra fun hne => by have := h.quiet hne; omega, hpos⟩

/-- Where nothing is outstanding, no operation is running. -/
theorem Control.not_running (h : Control C s) (hz : s.outstanding = 0) (o : ℕ) : ¬ s.Running o :=
  fun ho => by
    have := (h.normal ho).2
    omega

theorem Control.clean (h : Control C s) (hz : s.outstanding = 0) (b : ℕ) : s.dirty b = false := by
  by_contra hb
  obtain ⟨o, held, ho, -⟩ := h.dirty b (by simpa using hb)
  exact h.not_running hz o ⟨held, ho⟩

/-- What there is to show where no operation is running. -/
theorem Control.of_quiet (hout : s.outstanding = 0) (hrun : ∀ o, ¬ s.Running o)
    (hempty : s.phase = .normal ∨ (∃ o, s.phase = .finish o) → s.lh = [])
    (hdirty : ∀ b, s.dirty b = false)
    (href : ∀ b, s.refcnt b =
      (if b ∈ s.pinned then 1 else 0) + (if s.locked b = true then 1 else 0))
    (hlog : s.phase.up = true → s.lh.Nodup ∧ (∀ b ∈ s.lh, C.home b) ∧ s.lh.length ≤ LOGSIZE ∧
      s.lh.length ≤ C.size - 1)
    (hfresh : ∀ w ∈ s.hist, s.op w.op ≠ .idle)
    (hboot : s.phase.up = false → ∀ o, s.op o ≠ .ended ∧ s.op o ≠ .closing) : Control C s where
  count := ⟨∅, fun o => iff_of_false (Finset.notMem_empty o) (hrun o), hout.symm⟩
  quiet _ := hout
  empty hphase _ := hempty hphase
  dirty b hb := by
    rw [hdirty b] at hb
    cases hb
  held o held _ ho := absurd ⟨held, ho⟩ (hrun o)
  unique o _ held _ _ ho := absurd ⟨held, ho⟩ (hrun o)
  ref := href
  log := hlog
  fresh := hfresh
  inLog w _ ho := absurd ho (hrun w.op)
  boot := hboot

/-! ## Steps -/

theorem Control.boot_state (d : ℕ → Block) : Control C (Journal.boot d) :=
  .of_quiet rfl nofun (fun _ => rfl) (fun _ => rfl) (fun _ => rfl) nofun nofun
    (fun _ _ => ⟨nofun, nofun⟩)

/-- A crash ends every operation that was running. -/
theorem Control.crash (h : Control C s) : Control C s.crash := by
  have hop : ∀ o, s.crash.op o = (s.op o).crash := fun _ => rfl
  refine .of_quiet rfl (fun o ⟨held, ho⟩ => ?_) (fun _ => rfl) (fun _ => rfl) (fun _ => rfl) nofun
    (fun w hw hidle => h.fresh w hw ?_) (fun _ o => ?_)
  · rw [hop] at ho
    cases hs : s.op o <;> rw [hs] at ho <;> cases ho
  · rw [hop] at hidle
    cases hs : s.op w.op <;> rw [hs] at hidle <;> first | rfl | cases hidle
  · rw [hop]
    cases hs : s.op o <;> exact ⟨nofun, nofun⟩

theorem Control.beginOp (h : Control C s) (hphase : s.phase = .normal) (hop : s.op o = .idle) :
    Control C (s.beginOp o) := by
  have hrun : ∀ o', (s.beginOp o).Running o' ↔ o' = o ∨ s.Running o' := by
    intro o'
    refine running_update.trans ?_
    split_ifs with ho
    · exact iff_of_true ⟨[], rfl⟩ (.inl ho)
    · exact ⟨.inr, fun hr => hr.resolve_left ho⟩
  have hold : ∀ o' held b, (s.beginOp o).op o' = .running held → b ∈ held →
      s.op o' = .running held := by
    intro o' held b ho' hb
    by_cases ho : o' = o
    · subst ho
      simp only [beginOp, update_self, OpState.running.injEq] at ho'
      rw [← ho'] at hb
      exact absurd hb not_mem_nil
    · simpa [State.beginOp, ho] using ho'
  refine { h with
    count := ?_, quiet := absurd hphase, empty := fun _ hz => absurd hz (Nat.succ_ne_zero _)
    dirty := fun b hb => ?_
    held := fun o' held b ho' hb => h.held o' held b (hold o' held b ho' hb) hb
    unique := fun o₁ o₂ l₁ l₂ b h₁ h₂ hb₁ hb₂ =>
      h.unique o₁ o₂ l₁ l₂ b (hold o₁ l₁ b h₁ hb₁) (hold o₂ l₂ b h₂ hb₂) hb₁ hb₂
    fresh := fun w hw hidle => ?_, inLog := fun w hw ho => ?_, boot := fun hup => ?_ }
  · obtain ⟨R, hR, hcard⟩ := h.count
    have hnot : o ∉ R := fun ho => by
      obtain ⟨held, hr⟩ := (hR o).mp ho
      rw [hop] at hr
      cases hr
    refine ⟨insert o R, fun o' => ?_, ?_⟩
    · rw [Finset.mem_insert, hR o', hrun o']
    · rw [Finset.card_insert_of_notMem hnot, hcard]
      rfl
  · obtain ⟨o', held, ho', hbh⟩ := h.dirty b hb
    refine ⟨o', held, ?_, hbh⟩
    have hne : o' ≠ o := fun he => by
      rw [he, hop] at ho'
      cases ho'
    simpa [State.beginOp, hne] using ho'
  · by_cases ho : w.op = o
    · exact h.fresh w hw (by rw [ho, hop])
    · exact h.fresh w hw (by simpa [State.beginOp, ho] using hidle)
  · rcases (hrun w.op).mp ho with hwo | hr
    · exact absurd (hwo ▸ hop) (h.fresh w hw)
    · exact h.inLog w hw hr
  · rw [show (s.beginOp o).phase = .normal from hphase] at hup
    cases hup

/-- Replacing the list of buffers that a running operation has locked. -/
theorem Control.running_iff (hop : s.op o = .running held) (held' : List ℕ) (o' : ℕ) :
    (∃ l, update s.op o (.running held') o' = .running l) ↔ s.Running o' := by
  refine running_update.trans ?_
  by_cases ho : o' = o
  · rw [if_pos ho, ho]
    exact iff_of_true ⟨held', rfl⟩ ⟨held, hop⟩
  · rw [if_neg ho]

/-- **Other buffers are locked by a running operation**: none of them has been locked by
another one, and what it has changed is still locked. -/
theorem Control.setHeld (h : Control C s) (hop : s.op o = .running held) {held' : List ℕ}
    {r : ℕ → ℕ} {locked : ℕ → Bool} (hdirty : ∀ c ∈ held, s.dirty c = true → c ∈ held')
    (hnew : ∀ c ∈ held', locked c = true ∧ C.home c ∧ (c ∈ held ∨ s.locked c = false))
    (hlock : ∀ c, c ∉ held → s.locked c = true → locked c = true)
    (href : ∀ c, r c + (if s.locked c = true then 1 else 0) =
      s.refcnt c + (if locked c = true then 1 else 0)) :
    Control C { s with refcnt := r, locked := locked, op := update s.op o (.running held') } := by
  have hrun := Control.running_iff hop held'
  have hphase := (h.normal ⟨held, hop⟩).1
  have hother : ∀ {o' l c}, o' ≠ o → s.op o' = .running l → c ∈ l → c ∉ held :=
    fun hne ho' hc hch => hne (h.unique _ o _ held _ ho' hop hc hch)
  have hself : ∀ {l}, update s.op o (.running held') o = .running l → held' = l := by
    intro l hl
    rwa [update_self, OpState.running.injEq] at hl
  -- nobody else has locked one of the buffers
  have hfree : ∀ {o' l c}, o' ≠ o → s.op o' = .running l → c ∈ l → c ∉ held' := by
    intro o' l c hne ho' hc hch
    rcases (hnew c hch).2.2 with hheld | hfree
    · exact hother hne ho' hc hheld
    · rw [(h.held o' l c ho' hc).1] at hfree
      cases hfree
  refine { h with
    count := ?_, dirty := fun c hc => ?_, held := fun o' l c ho' hc => ?_,
    unique := fun o₁ o₂ l₁ l₂ c h₁ h₂ hc₁ hc₂ => ?_, ref := fun c => ?_,
    fresh := fun w hw hidle => ?_, inLog := fun w hw ho => h.inLog w hw ((hrun w.op).mp ho),
    boot := fun hup => ?_ }
  · obtain ⟨R, hR, hcard⟩ := h.count
    exact ⟨R, fun o' => (hR o').trans (hrun o').symm, hcard⟩
  · obtain ⟨o', l, ho', hch⟩ := h.dirty c hc
    by_cases ho : o' = o
    · rw [ho, hop, OpState.running.injEq] at ho'
      exact ⟨o, held', update_self .., hdirty c (ho' ▸ hch) hc⟩
    · exact ⟨o', l, (update_of_ne ho ..).trans ho', hch⟩
  · by_cases ho : o' = o
    · subst ho
      obtain ⟨hl, hh, -⟩ := hnew c (hself ho' ▸ hc)
      exact ⟨hl, hh⟩
    · dsimp only at ho'
      rw [update_of_ne ho] at ho'
      obtain ⟨hl, hh⟩ := h.held o' l c ho' hc
      exact ⟨hlock c (hother ho ho' hc) hl, hh⟩
  · dsimp only at h₁ h₂
    by_cases ho₁ : o₁ = o <;> by_cases ho₂ : o₂ = o
    · rw [ho₁, ho₂]
    · rw [update_of_ne ho₂] at h₂
      subst ho₁
      exact absurd (hself h₁ ▸ hc₁) (hfree ho₂ h₂ hc₂)
    · rw [update_of_ne ho₁] at h₁
      subst ho₂
      exact absurd (hself h₂ ▸ hc₂) (hfree ho₁ h₁ hc₁)
    · rw [update_of_ne ho₁] at h₁
      rw [update_of_ne ho₂] at h₂
      exact h.unique o₁ o₂ l₁ l₂ c h₁ h₂ hc₁ hc₂
  · have hr := h.ref c
    have hr' := href c
    show r c = (if c ∈ s.pinned then 1 else 0) + (if locked c = true then 1 else 0)
    omega
  · by_cases ho : w.op = o
    · simp [ho] at hidle
    · exact h.fresh w hw (by simpa [ho] using hidle)
  · rw [show s.phase = .normal from hphase] at hup
    cases hup

theorem Control.acquire (h : Control C s) (hop : s.op o = .running held) (hb : C.home b)
    (hlock : s.locked b = false) : Control C (s.acquire o b held) := by
  have hold : ∀ c, s.locked c = true → update s.locked b true c = true := by
    intro c hc
    by_cases hcb : c = b
    · rw [hcb, update_self]
    · rwa [update_of_ne hcb]
  refine { h.setHeld (r := update s.refcnt b (s.refcnt b + 1)) hop
    (fun c hc _ => mem_cons_of_mem b hc) (fun c hc => ?_) (fun c _ => hold c) (fun c => ?_) with }
  · rcases mem_cons.mp hc with rfl | hc
    · exact ⟨update_self .., hb, .inr hlock⟩
    · obtain ⟨hl, hh⟩ := h.held o held c hop hc
      exact ⟨hold c hl, hh, .inl hc⟩
  · by_cases hcb : c = b
    · rw [hcb, update_self, update_self, hlock]
      rfl
    · rw [update_of_ne hcb, update_of_ne hcb]

theorem Control.modify (h : Control C s) (hop : s.op o = .running held) (hb : b ∈ held) :
    Control C (s.modify b v) := by
  refine { h with dirty := fun c hc => ?_ }
  by_cases hcb : c = b
  · exact ⟨o, held, hop, hcb ▸ hb⟩
  · exact h.dirty c (by simpa [State.modify, hcb] using hc)

/-- `brelse` of a buffer that has been logged, or has not been changed. -/
theorem Control.brelse (h : Control C s) (hop : s.op o = .running held) (hb : b ∈ held)
    (hclean : s.dirty b = false) : Control C (s.brelse o b held) := by
  have hlock := (h.held o held b hop hb).1
  refine h.setHeld hop (fun c hc hd => ?_) (fun c hc => ?_) (fun c hc hl => ?_) (fun c => ?_)
  · refine mem_filter.mpr ⟨hc, decide_eq_true ?_⟩
    rintro rfl
    rw [hd] at hclean
    cases hclean
  · rw [mem_filter, decide_eq_true_eq] at hc
    obtain ⟨hl, hh⟩ := h.held o held c hop hc.1
    exact ⟨(update_of_ne hc.2 ..).trans hl, hh, .inl hc.1⟩
  · have hcb : c ≠ b := fun he => hc (he ▸ hb)
    rwa [update_of_ne hcb]
  · have hr := h.ref b
    rw [if_pos hlock] at hr
    by_cases hcb : c = b
    · rw [hcb, update_self, update_self, if_pos hlock, if_neg nofun]
      omega
    · rw [update_of_ne hcb, update_of_ne hcb]

/-- **What `log_write` does if it does not panic.** -/
theorem logWrite_eq (hp : (s.logWrite C o b).panic = none) :
    s.lh.length < LOGSIZE ∧ s.lh.length < C.size - 1 ∧ 1 ≤ s.outstanding ∧
      s.logWrite C o b =
        { s with
          lh := if b ∈ s.lh then s.lh else s.lh ++ [b]
          refcnt := if b ∈ s.lh then s.refcnt else update s.refcnt b (s.refcnt b + 1)
          dirty := update s.dirty b false
          hist := s.hist ++ [⟨o, b, s.read b⟩] } := by
  unfold logWrite at hp ⊢
  by_cases h1 : LOGSIZE ≤ s.lh.length ∨ C.size - 1 ≤ s.lh.length
  · rw [if_pos h1] at hp
    cases hp
  by_cases h2 : s.outstanding < 1
  · rw [if_neg h1, if_pos h2] at hp
    cases hp
  rw [if_neg h1, if_neg h2]
  exact ⟨not_le.mp (fun h => h1 (.inl h)), not_le.mp (fun h => h1 (.inr h)), not_lt.mp h2, rfl⟩

/-- Panicking changes nothing else. -/
theorem logWrite_panic (hp : (s.logWrite C o b).panic ≠ none) (hs : s.panic = none) :
    ∃ q, s.logWrite C o b = { s with panic := some q } := by
  unfold logWrite at hp ⊢
  by_cases h1 : LOGSIZE ≤ s.lh.length ∨ C.size - 1 ≤ s.lh.length
  · exact ⟨.tooBig, if_pos h1⟩
  by_cases h2 : s.outstanding < 1
  · exact ⟨.outsideTrans, by rw [if_neg h1, if_pos h2]⟩
  rw [if_neg h1, if_neg h2] at hp
  exact absurd hs hp

variable (h : Control C s)
include h

theorem Control.logWrite (hs : s.panic = none) (hop : s.op o = .running held) (hb : b ∈ held) :
    Control C (s.logWrite C o b) := by
  by_cases hp : (s.logWrite C o b).panic = none
  swap
  · obtain ⟨_, hq⟩ := logWrite_panic hp hs
    rw [hq]
    exact { h with }
  obtain ⟨hlog, hsize, _, heq⟩ := logWrite_eq hp
  have hphase := (h.normal ⟨held, hop⟩).1
  rw [heq]
  have hmem : ∀ c, c ∈ (if b ∈ s.lh then s.lh else s.lh ++ [b]) ↔ c ∈ s.lh ∨ c = b := by
    intro c
    split_ifs with hbl
    · exact ⟨.inl, fun hc => hc.elim id (fun he => he ▸ hbl)⟩
    · rw [mem_append, mem_singleton]
  refine { h with
    empty := fun _ hz => ?_, dirty := fun c hc => ?_, ref := fun c => ?_, log := fun hup => ?_,
    fresh := fun w hw => ?_, inLog := fun w hw ho => ?_, boot := fun hup => ?_ }
  · exact absurd hz (by show s.outstanding ≠ 0; omega)
  · by_cases hcb : c = b
    · simp [hcb] at hc
    · exact h.dirty c (by simpa [hcb] using hc)
  · have hr := h.ref c
    simp only [pinned, hphase] at hr ⊢
    by_cases hbl : b ∈ s.lh
    · simp only [if_pos hbl]
      exact hr
    · simp only [if_neg hbl, mem_append, mem_singleton]
      by_cases hcb : c = b
      · subst hcb
        rw [if_neg hbl] at hr
        rw [update_self, hr]
        simp [add_comm]
      · rw [update_of_ne hcb, hr]
        simp [hcb]
  · obtain ⟨h1, h2, -, -⟩ := h.log hup
    refine ⟨?_, fun c hc => ?_, ?_, ?_⟩
    · split_ifs with hbl
      · exact h1
      · rw [← concat_eq_append]
        exact h1.concat hbl
    · rcases (hmem c).mp hc with hc | rfl
      · exact h2 c hc
      · exact (h.held o held c hop hb).2
    · split_ifs
      · exact hlog.le
      · rw [length_append, length_singleton]
        exact hlog
    · split_ifs
      · exact hsize.le
      · rw [length_append, length_singleton]
        exact hsize
  · rcases mem_append.mp hw with hw | hw
    · exact h.fresh w hw
    · rw [mem_singleton.mp hw, hop]
      exact nofun
  · refine (hmem w.blockno).mpr ?_
    rcases mem_append.mp hw with hw | hw
    · exact .inl (h.inLog w hw ho)
    · rw [mem_singleton] at hw
      exact .inr (by rw [hw])
  · rw [show s.phase = .normal from hphase] at hup
    cases hup

/-- An operation that ends, when there is no panic: the last one commits. -/
theorem endOp_eq (hop : s.op o = .running []) :
    (s.outstanding = 1 ∧ s.endOp o =
        { s with
          outstanding := 0, phase := if s.lh = [] then .finish o else .writeLog o 0
          op := update s.op o .closing }) ∨
    (2 ≤ s.outstanding ∧ s.endOp o =
        { s with outstanding := s.outstanding - 1, op := update s.op o .ended }) := by
  obtain ⟨hphase, _⟩ := h.normal ⟨[], hop⟩
  unfold endOp
  rw [hphase, if_neg (by decide)]
  by_cases hlast : s.outstanding - 1 = 0
  · rw [if_pos hlast]
    exact .inl ⟨by omega, by rw [hlast]⟩
  · rw [if_neg hlast]
    exact .inr ⟨by omega, rfl⟩

/-- An operation that has no buffer locked is over, and the blocks of the log stay pinned. -/
theorem Control.leave (st : OpState) (ph : Phase) (hop : s.op o = .running [])
    (hover : (∀ held, st ≠ .running held) ∧ st ≠ .idle) (hup : ph.up = true)
    (hpin : pinned { s with phase := ph } = s.lh) (hquiet : ph ≠ .normal → s.outstanding = 1)
    (hempty : ph = .normal ∨ (∃ o, ph = .finish o) → s.outstanding = 1 → s.lh = []) :
    Control C { s with
      outstanding := s.outstanding - 1, phase := ph, op := update s.op o st } := by
  obtain ⟨hphase, hpos⟩ := h.normal ⟨[], hop⟩
  have hrun : ∀ o', (∃ l, update s.op o st o' = .running l) ↔ o' ≠ o ∧ s.Running o' := by
    intro o'
    refine running_update.trans ?_
    split_ifs with ho
    · exact iff_of_false (fun ⟨l, hl⟩ => hover.1 l hl) fun hc => hc.1 ho
    · exact ⟨fun hr => ⟨ho, hr⟩, fun hr => hr.2⟩
  have hold : ∀ {o' held}, update s.op o st o' = .running held → s.op o' = .running held := by
    intro o' held ho'
    obtain ⟨hne, -⟩ := (hrun o').mp ⟨held, ho'⟩
    rwa [update_of_ne hne] at ho'
  refine {
    count := ?_, quiet := fun hne => by rw [hquiet hne]
    empty := fun hph hz => hempty hph (by dsimp only at hz; omega)
    dirty := fun b hb => ?_
    held := fun o' held b ho' hb => h.held o' held b (hold ho') hb
    unique := fun o₁ o₂ l₁ l₂ b h₁ h₂ hb₁ hb₂ => h.unique o₁ o₂ l₁ l₂ b (hold h₁) (hold h₂) hb₁ hb₂
    ref := fun b => ?_, log := fun _ => h.log (by rw [hphase]; rfl)
    fresh := fun w hw hidle => ?_, inLog := fun w hw ho => h.inLog w hw ((hrun w.op).mp ho).2
    boot := fun hc => by rw [show ph.up = false from hc] at hup; cases hup }
  · obtain ⟨R, hR, hcard⟩ := h.count
    refine ⟨R.erase o, fun o' => ?_, ?_⟩
    · rw [Finset.mem_erase, hR o']
      exact (hrun o').symm
    · rw [Finset.card_erase_of_mem ((hR o).mpr ⟨[], hop⟩), hcard]
  · obtain ⟨o', held, ho', hbh⟩ := h.dirty b hb
    have hne : o' ≠ o := fun he => by
      rw [he, hop, OpState.running.injEq] at ho'
      rw [← ho'] at hbh
      exact absurd hbh not_mem_nil
    exact ⟨o', held, by simpa [hne] using ho', hbh⟩
  · have hr := h.ref b
    rw [show s.pinned = s.lh by rw [pinned, hphase], ← hpin] at hr
    exact hr
  · by_cases ho : w.op = o
    · simp [ho, hover.2] at hidle
    · exact h.fresh w hw (by simpa [ho] using hidle)

theorem Control.endOp (hop : s.op o = .running []) : Control C (s.endOp o) := by
  rcases endOp_eq h hop with ⟨h1, heq⟩ | ⟨h2, heq⟩
  · rw [heq]
    have hl := fun ph => h.leave .closing ph hop ⟨nofun, nofun⟩
    rw [h1] at hl
    by_cases hlh : s.lh = []
    · rw [if_pos hlh]
      exact hl (.finish o) rfl rfl (fun _ => rfl) fun _ _ => hlh
    · rw [if_neg hlh]
      refine hl (.writeLog o 0) rfl rfl (fun _ => rfl) fun hph _ => ?_
      rcases hph with hc | ⟨_, hc⟩ <;> cases hc
  · have hphase := (h.normal ⟨[], hop⟩).1
    rw [heq]
    refine h.leave .ended _ hop ⟨nofun, nofun⟩ (by rw [hphase]; rfl) ?_ (absurd hphase)
      fun _ h1 => ?_
    · show s.pinned = s.lh
      rw [pinned, hphase]
    · omega

/-- Reference counts stay as they are while nothing is pinned or unpinned. -/
theorem Control.ref_of_pinned (hpin : s'.pinned = s.pinned) (href : s'.refcnt = s.refcnt)
    (hlock : s'.locked = s.locked) (b : ℕ) :
    s'.refcnt b = (if b ∈ s'.pinned then 1 else 0) + (if s'.locked b = true then 1 else 0) := by
  rw [hpin, href, hlock]
  exact h.ref b

/-- `install_trans` unpins the block it has installed. -/
theorem Control.unpin {t : ℕ} (hphase : s.phase = .installTrans o t) (hb : s.lh[t]? = some b)
    (c : ℕ) : update s.refcnt b (s.refcnt b - 1) c =
      (if c ∈ s.lh.drop (t + 1) then 1 else 0) + (if s.locked c = true then 1 else 0) := by
  obtain ⟨hlt, hget⟩ := List.getElem?_eq_some_iff.mp hb
  have hdrop : s.lh.drop t = b :: s.lh.drop (t + 1) := by
    rw [drop_eq_getElem_cons hlt, hget]
  have hnodup : (s.lh.drop t).Nodup :=
    ((h.log (by rw [hphase]; rfl)).1).sublist (drop_sublist t s.lh)
  rw [hdrop, nodup_cons] at hnodup
  have hr := h.ref c
  rw [show s.pinned = s.lh.drop t by rw [pinned, hphase], hdrop] at hr
  by_cases hcb : c = b
  · subst hcb
    rw [if_pos mem_cons_self] at hr
    rw [update_self, hr, if_neg hnodup.1, Nat.zero_add, Nat.add_sub_cancel_left]
  · rw [update_of_ne hcb, hr]
    simp [hcb]

section

/- The disk writes of `commit` and of `recover_from_log` leave the operations, what is dirty and
what has been logged as they are. -/
variable (hout : s'.outstanding = s.outstanding) (hop : s'.op = s.op) (hdirty : s'.dirty = s.dirty)
  (hhist : s'.hist = s.hist)
include hout hop hdirty hhist

theorem Control.of_write (hz : s.outstanding = 0)
    (hempty : s'.phase = .normal ∨ (∃ o, s'.phase = .finish o) → s'.lh = [])
    (href : ∀ b, s'.refcnt b =
      (if b ∈ s'.pinned then 1 else 0) + (if s'.locked b = true then 1 else 0))
    (hlh : s'.phase.up = true → s.phase.up = true ∧ s'.lh = s.lh ∨ s'.lh = [])
    (hboot : s'.phase.up = false → s.phase.up = false) : Control C s' := by
  refine .of_quiet (hout.trans hz) (fun o ho => h.not_running hz o ?_) hempty ?_ href
    (fun hup => ?_) ?_ (fun hup => ?_)
  · rwa [State.Running, hop] at ho
  · rw [hdirty]
    exact h.clean hz
  · rcases hlh hup with ⟨hup, hlh⟩ | hlh
    · rw [hlh]
      exact h.log hup
    · rw [hlh]
      exact ⟨nodup_nil, nofun, Nat.zero_le _, Nat.zero_le _⟩
  · rw [hhist, hop]
    exact h.fresh
  · rw [hop]
    exact h.boot (hboot hup)

/-- `commit` unpins blocks. -/
theorem Control.of_commit (hphase : s.phase ≠ .normal) (hup : s.phase.up = true)
    (hempty : s'.phase = .normal ∨ (∃ o, s'.phase = .finish o) → s'.lh = [])
    (href : ∀ b, s'.refcnt b =
      (if b ∈ s'.pinned then 1 else 0) + (if s'.locked b = true then 1 else 0))
    (hlh : s'.lh = s.lh ∨ s'.lh = []) (hup' : s'.phase.up = true) : Control C s' :=
  h.of_write hout hop hdirty hhist (h.quiet hphase) hempty href
    (fun _ => hlh.imp_left fun he => ⟨hup, he⟩) fun hc => by rw [hup'] at hc; cases hc

/-- At boot nothing is pinned, and the log is empty when recovery is over. -/
theorem Control.of_recover (hphase : s.phase.up = false) (hcnt : s'.refcnt = s.refcnt)
    (hlock : s'.locked = s.locked)
    (hph : s'.phase.up = false ∨ s'.phase = .normal ∧ s'.lh = []) : Control C s' := by
  have hpin : ∀ {t : State}, t.phase.up = false → t.pinned = [] := by
    intro t ht
    unfold pinned
    cases hs : t.phase <;> first | rfl | (rw [hs] at ht; cases ht)
  have hpin' : s'.pinned = [] := by
    rcases hph with hph | ⟨hph, hlh⟩
    · exact hpin hph
    · rw [pinned, hph]
      exact hlh
  refine h.of_write hout hop hdirty hhist (h.quiet fun hn => ?_) (fun hn => ?_)
    (h.ref_of_pinned (hpin'.trans (hpin hphase).symm) hcnt hlock) (fun hup => ?_) fun _ => hphase
  · rw [hn] at hphase
    cases hphase
  · rcases hph with hph | ⟨-, hlh⟩
    · rcases hn with hn | ⟨o, hn⟩ <;> rw [hn] at hph <;> cases hph
    · exact hlh
  · rcases hph with hph | ⟨-, hlh⟩
    · rw [hph] at hup
      cases hup
    · exact .inr hlh

end

theorem Control.finish (hphase : s.phase = .finish o) :
    Control C { s with phase := .normal, op := fun o => (s.op o).finish } := by
  have hz := h.quiet (by rw [hphase]; nofun)
  have hlh := h.empty (.inr ⟨o, hphase⟩) hz
  have hpin : s.pinned = s.lh := by rw [pinned, hphase]
  have hlog := h.log (by rw [hphase]; rfl)
  refine .of_quiet hz (fun o' ⟨held, ho'⟩ => h.not_running hz o' ?_) (fun _ => hlh) (h.clean hz)
    (h.ref_of_pinned hpin.symm rfl rfl) (fun _ => hlog) (fun w hw hidle => h.fresh w hw ?_) nofun
  · have hf : (s.op o').finish = .running held := ho'
    cases hs : s.op o' with
    | running held' => exact ⟨held', hs⟩
    | _ => rw [hs] at hf; cases hf
  · have hf : (s.op w.op).finish = .idle := hidle
    cases hs : s.op w.op with
    | idle => rfl
    | _ => rw [hs] at hf; cases hf

/-- **Every step keeps the invariant of control.** -/
theorem Control.step (hstep : Journal.step C s l = some s') : Control C s' := by
  obtain ⟨hcase, hp⟩ := step_cases hstep
  cases hcase with
  | beginOp hphase hop => exact h.beginOp hphase hop
  | bread hop hb hlock => exact h.acquire hop hb hlock
  | modify hop hb => exact h.modify hop hb
  | logWrite hop hb => exact h.logWrite (hp nofun) hop hb
  | brelse hop hb hclean => exact h.brelse hop hb hclean
  | endOp hop => exact h.endOp hop
  | logBlock hphase _ | writeHead hphase _ =>
    refine h.of_commit rfl rfl rfl rfl (by rw [hphase]; nofun) (by rw [hphase]; rfl) nofun
      (h.ref_of_pinned ?_ rfl rfl) (.inl rfl) rfl
    simp only [pinned, hphase]
    rfl
  | install hphase hb =>
    exact h.of_commit rfl rfl rfl rfl (by rw [hphase]; nofun) (by rw [hphase]; rfl) nofun
      (h.unpin hphase hb) (.inl rfl) rfl
  | clear hphase hend =>
    have hpin : s.pinned = [] := by
      rw [pinned, hphase]
      exact drop_eq_nil_of_le (List.getElem?_eq_none_iff.mp hend)
    exact h.of_commit rfl rfl rfl rfl (by rw [hphase]; nofun) (by rw [hphase]; rfl)
      (fun _ => rfl) (h.ref_of_pinned hpin.symm rfl rfl) (.inr rfl) rfl
  | finish hphase => exact h.finish hphase
  | readHead hphase | reinstall hphase =>
    exact h.of_recover rfl rfl rfl rfl (by rw [hphase]; rfl) rfl rfl (.inl rfl)
  | reclear hphase =>
    exact h.of_recover rfl rfl rfl rfl (by rw [hphase]; rfl) rfl rfl (.inr ⟨rfl, rfl⟩)
  | fill | evict => exact { h with }
  | crash => exact h.crash

end Xv6.Journal
