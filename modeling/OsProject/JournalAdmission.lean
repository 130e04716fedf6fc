import OsProject.JournalControl
import Mathlib.Algebra.Group.Action.Defs
import Mathlib.Algebra.Order.BigOperators.Group.Finset

/-!
# Admission to the log

`begin_op` lets an operation start only if every operation that is running,
itself included, could still log `MAXOPBLOCKS` blocks without exceeding
`LOGSIZE`. The panics of `log.c` should then be out of reach for operations that
keep to `MAXOPBLOCKS` distinct blocks.

They are not. `mkfs` makes a log of `LOGSIZE` blocks with the header among them,
so `log_write` panics from `LOGSIZE - 1` blocks on – also when the block is in the
log already – while three operations of `MAXOPBLOCKS` blocks are admitted
together. With one block less for each operation there is room: what the
running operations may still log is accounted for in `Budget`, an invariant in
which begin, log and end are a deposit, a transfer and a withdrawal.
-/

namespace Xv6.Journal

open Finset

/-- The distinct blocks that operation `o` has passed to `log_write`. -/
def State.logged (s : State) (o : ℕ) : Finset ℕ :=
  ((s.hist.filter (·.op = o)).map Write.blockno).toFinset

/-- No operation passes more than `n` distinct blocks to `log_write`. -/
def AtMost (n : ℕ) (s : State) : Label → Prop
  | .logWrite o b => (insert b (s.logged o)).card ≤ n
  | _ => True

instance (n : ℕ) (s : State) : (l : Label) → Decidable (AtMost n s l)
  | .logWrite o b => Nat.decLe (insert b (s.logged o)).card n
  | .beginOp _ | .bread _ _ | .modify _ _ _ | .brelse _ _ | .endOp _ | .commit | .recover
  | .fill _ | .evict _ | .crash => instDecidableTrue

variable {C : Config} {s s' : State} {o o' b n : ℕ} {held : List ℕ} {l : Label}

/-- **There is room for what the running operations may still log**, `n` blocks
for each. -/
structure Budget (n : ℕ) (s : State) : Prop where
  room : s.phase.up = true → ∀ R : Finset ℕ, (∀ o ∈ R, s.Running o) →
    s.lh.length + ∑ o ∈ R, (n - (s.logged o).card) + 2 ≤ LOGSIZE
  most : ∀ o, (s.logged o).card ≤ n
  calm : s.panic = none

theorem logged_append (w : Write) (h : s'.hist = s.hist ++ [w]) (o : ℕ) :
    s'.logged o = if o = w.op then insert w.blockno (s.logged o) else s.logged o := by
  unfold State.logged
  rw [h, List.filter_append, List.map_append, List.toFinset_append]
  split_ifs with ho
  · rw [insert_eq, union_comm, List.filter_cons_of_pos (by simp [ho])]
    rfl
  · rw [List.filter_cons_of_neg (by simpa using Ne.symm ho)]
    exact union_empty _

theorem logged_congr (h : s'.hist = s.hist) (o : ℕ) : s'.logged o = s.logged o := by
  rw [State.logged, State.logged, h]

/-- A step that starts no operation and logs nothing. -/
theorem Budget.of_le (h : Budget n s) (hhist : s'.hist = s.hist) (hpanic : s'.panic = none)
    (hroom : s'.phase.up = true →
      s'.lh.length ≤ s.lh.length ∧ s.phase.up = true ∧ (∀ o, s'.Running o → s.Running o) ∨
      s'.lh = [] ∧ ∀ o, ¬ s'.Running o) : Budget n s' := by
  refine ⟨fun hup R hR => ?_, fun o => ?_, hpanic⟩
  · simp only [logged_congr hhist]
    rcases hroom hup with ⟨_, hup, hrun⟩ | ⟨hlh, hrun⟩
    · have := h.room hup R (fun o ho => hrun o (hR o ho))
      omega
    · have hempty : R = ∅ := eq_empty_of_forall_notMem fun o ho => hrun o (hR o ho)
      rw [hempty, hlh, sum_empty]
      decide
  · rw [logged_congr hhist]
    exact h.most o

/-- **`begin_op` deposits `n` blocks.** -/
theorem Budget.beginOp (h : Budget n s) (hc : Control C s) (hn : n < MAXOPBLOCKS)
    (hphase : s.phase = .normal)
    (hroom : s.lh.length + (s.outstanding + 1) * MAXOPBLOCKS ≤ LOGSIZE) :
    Budget n (s.beginOp o) := by
  refine ⟨fun _ R hR => ?_, h.most, h.calm⟩
  show s.lh.length + ∑ o ∈ R, (n - (s.logged o).card) + 2 ≤ LOGSIZE
  -- those that were running before are no more than `outstanding`
  obtain ⟨R₀, hR₀, _⟩ := hc.count
  have hsub : R.erase o ⊆ R₀ := fun o' ho' => by
    obtain ⟨hne, ho'⟩ := mem_erase.mp ho'
    have hrun := running_update.mp (hR o' ho')
    rw [if_neg hne] at hrun
    exact (hR₀ o').mpr hrun
  have hle : R.card ≤ s.outstanding + 1 := by
    have h1 := card_le_card hsub
    have h2 := pred_card_le_card_erase (s := R) (a := o)
    omega
  have hsum : ∑ o ∈ R, (n - (s.logged o).card) ≤ R.card * n := by
    have hsmul := sum_le_card_nsmul R _ n fun o _ => Nat.sub_le n (s.logged o).card
    rwa [smul_eq_mul] at hsmul
  have hmul : R.card * n ≤ (s.outstanding + 1) * 9 :=
    Nat.mul_le_mul hle (by unfold MAXOPBLOCKS at hn; omega)
  unfold MAXOPBLOCKS LOGSIZE at *
  by_cases hz : s.outstanding = 0
  · -- nothing is running, so the log is empty
    have hlh := hc.empty (.inl hphase) hz
    rw [hlh, List.length_nil]
    omega
  · omega

/-- **`log_write` does not panic, and takes a block out of the budget of its
operation.** -/
theorem Budget.logWrite (h : Budget n s) (hc : Control mkfs s) (hop : s.op o = .running held)
    (hb : (insert b (s.logged o)).card ≤ n) : Budget n (s.logWrite mkfs o b) := by
  have hup : s.phase.up = true := by
    rw [(hc.normal ⟨held, hop⟩).1]
    rfl
  have hcalm : (s.logWrite mkfs o b).panic = none := by
    have hlen := h.room hup ∅ (fun o ho => absurd ho (Finset.notMem_empty o))
    have hout := (hc.normal ⟨held, hop⟩).2
    unfold State.logWrite
    rw [if_neg (by unfold mkfs LOGSIZE at *; simp only; omega), if_neg (by omega)]
    exact h.calm
  obtain ⟨-, -, -, heq⟩ := logWrite_eq hcalm
  have hhist : (s.logWrite mkfs o b).hist = s.hist ++ [⟨o, b, s.read b⟩] := by rw [heq]
  have hlog := logged_append _ hhist
  refine ⟨fun _ R hR => ?_, fun o' => ?_, hcalm⟩
  · have hR' : ∀ o' ∈ insert o R, s.Running o' := fun o' ho' => by
      rcases mem_insert.mp ho' with rfl | ho'
      · exact ⟨held, hop⟩
      · have hrun := hR o' ho'
        rwa [State.Running, heq] at hrun
    have hroom := h.room hup (insert o R) hR'
    rw [← add_sum_erase _ _ (mem_insert_self o R)] at hroom
    -- the budgets of the others have not changed
    have hothers : ∀ o' ∈ (insert o R).erase o,
        n - ((s.logWrite mkfs o b).logged o').card = n - (s.logged o').card := by
      intro o' ho'
      rw [hlog, if_neg (ne_of_mem_erase ho')]
    have hsum : ∑ o' ∈ R, (n - ((s.logWrite mkfs o b).logged o').card) ≤
        (n - (insert b (s.logged o)).card) +
          ∑ o' ∈ (insert o R).erase o, (n - (s.logged o').card) := by
      refine (sum_le_sum_of_subset (subset_insert o R)).trans ?_
      rw [← add_sum_erase _ _ (mem_insert_self o R), sum_congr rfl hothers, hlog, if_pos rfl]
    have hlen : (s.logWrite mkfs o b).lh.length + (n - (insert b (s.logged o)).card) ≤
        s.lh.length + (n - (s.logged o).card) := by
      have hlh : (s.logWrite mkfs o b).lh = if b ∈ s.lh then s.lh else s.lh ++ [b] := by rw [heq]
      rw [hlh]
      by_cases hmem : b ∈ s.logged o
      · -- what an operation has logged is in the log, and absorbed
        have hin : b ∈ s.lh := by
          simp only [State.logged, List.mem_toFinset, List.mem_map, List.mem_filter,
            decide_eq_true_eq] at hmem
          obtain ⟨w, ⟨hw, hwo⟩, rfl⟩ := hmem
          exact hc.inLog w hw ⟨held, hwo ▸ hop⟩
        rw [insert_eq_of_mem hmem, if_pos hin]
      · rw [card_insert_of_notMem hmem] at hb ⊢
        have hgrow : (if b ∈ s.lh then s.lh else s.lh ++ [b]).length ≤ s.lh.length + 1 := by
          split_ifs
          · exact Nat.le_succ _
          · rw [List.length_append, List.length_singleton]
        omega
    omega
  · rw [hlog]
    split_ifs with ho
    · rw [ho]
      exact hb
    · exact h.most o'

/-- **Every step keeps the budget**, if no operation logs `MAXOPBLOCKS` blocks. -/
theorem Budget.step (h : Budget n s) (hc : Control mkfs s) (hn : n < MAXOPBLOCKS)
    (hok : AtMost n s l) (hstep : Journal.step mkfs s l = some s') : Budget n s' := by
  obtain ⟨hcase, -⟩ := step_cases hstep
  cases hcase with
  | beginOp hphase _ hroom => exact h.beginOp hc hn hphase hroom
  | bread hop _ _ | brelse hop _ _ =>
    exact h.of_le rfl h.calm fun hup =>
      .inl ⟨le_rfl, hup, fun o' => (Control.running_iff hop _ o').mp⟩
  | logWrite hop => exact h.logWrite hc hop hok
  | @endOp o hop =>
    have hrun : ∀ st : OpState, (∀ held, st ≠ .running held) → ∀ o',
        (∃ held, Function.update s.op o st o' = .running held) → s.Running o' := by
      intro st hst o' ho'
      have hif := running_update.mp ho'
      split_ifs at hif
      · obtain ⟨held, hheld⟩ := hif
        exact absurd hheld (hst held)
      · exact hif
    have hup : s.phase.up = true := by
      rw [(hc.normal ⟨[], hop⟩).1]
      rfl
    rcases endOp_eq hc hop with ⟨-, heq⟩ | ⟨-, heq⟩
    · rw [heq]
      exact h.of_le rfl h.calm fun _ => .inl ⟨le_rfl, hup, hrun _ nofun⟩
    · rw [heq]
      exact h.of_le rfl h.calm fun _ => .inl ⟨le_rfl, hup, hrun _ nofun⟩
  | logBlock hphase _ | writeHead hphase _ | install hphase _ =>
    exact h.of_le rfl h.calm fun _ => .inl ⟨le_rfl, by rw [hphase]; rfl, fun _ => id⟩
  | clear hphase _ =>
    exact h.of_le rfl h.calm fun _ =>
      .inl ⟨Nat.zero_le _, by rw [hphase]; rfl, fun _ => id⟩
  | finish hphase =>
    have hz := hc.quiet (by rw [hphase]; nofun)
    refine h.of_le rfl h.calm fun _ => .inr ⟨hc.empty (.inr ⟨_, hphase⟩) hz, fun o' ho' => ?_⟩
    obtain ⟨R, hR, hcard⟩ := (hc.finish hphase).count
    have hzero : R.card = 0 := hcard.trans hz
    rw [card_eq_zero.mp hzero] at hR
    exact Finset.notMem_empty o' ((hR o').mpr ho')
  | readHead | reinstall => exact h.of_le rfl h.calm nofun
  | reclear hphase _ =>
    have hz := hc.quiet (by rw [hphase]; nofun)
    exact h.of_le rfl h.calm fun _ => .inr ⟨rfl, hc.not_running hz⟩
  | modify _ _ | fill | evict _ =>
    exact h.of_le rfl h.calm fun hup => .inl ⟨le_rfl, hup, fun _ => id⟩
  | crash => exact h.of_le rfl rfl nofun

/-- **Admission control is sound for operations of fewer than `MAXOPBLOCKS`
blocks**: with any number of them, in any interleaving, with crashes and from
any disk, no panic of `log.c` is reached. -/
theorem no_panic_of_atMost (d : ℕ → Block)
    (h : Lts.Runs (step mkfs) (AtMost (MAXOPBLOCKS - 1)) (boot d) s) : s.panic = none := by
  have hinv : Control mkfs s ∧ Budget (MAXOPBLOCKS - 1) s :=
    Lts.Runs.invariant (I := fun s => Control mkfs s ∧ Budget (MAXOPBLOCKS - 1) s) h
      ⟨.boot_state d, nofun, fun _ => Nat.zero_le _, rfl⟩
      fun _ _ _ hI hok hstep => ⟨hI.1.step hstep, hI.2.step hI.1 (by decide) hok hstep⟩
  exact hinv.2.calm

/-- Three operations start, and pass `n` blocks each to `log_write`, one operation
after the other. -/
def threeOps (n : ℕ) : List Label :=
  [.recover, .recover, .beginOp 0, .beginOp 1, .beginOp 2] ++
    (List.range (3 * n)).flatMap fun i =>
      [.bread (i / n) (100 + i), .modify (i / n) (100 + i) (fun _ => 1),
        .logWrite (i / n) (100 + i), .brelse (i / n) (100 + i)]

theorem no_panic_threeOps : ∃ s,
    Lts.Runs (step mkfs) (AtMost (MAXOPBLOCKS - 1)) (boot fun _ _ => 0) s ∧
    s.lh.length = 27 ∧ s.panic = none := by
  obtain ⟨s, hrun, hlen⟩ : ∃ s ∈ Lts.runIf (step mkfs) (AtMost (MAXOPBLOCKS - 1))
      (boot fun _ _ => 0) (threeOps (MAXOPBLOCKS - 1)), s.lh.length = 27 := by decide +kernel
  replace hrun := Lts.runs_of_runIf hrun
  exact ⟨s, hrun, hlen, no_panic_of_atMost _ hrun⟩

/-- **Three operations of `MAXOPBLOCKS` blocks panic**: the last call of
`log_write` finds `LOGSIZE - 1` blocks in the log. -/
theorem threeOps_tooBig : ∃ s, Lts.Runs (step mkfs) (AtMost MAXOPBLOCKS) (boot fun _ _ => 0) s ∧
    s.panic = some .tooBig :=
  Lts.exists_runs_if (threeOps MAXOPBLOCKS).dropLast (by decide +kernel)

end Xv6.Journal
