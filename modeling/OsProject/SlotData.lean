import OsProject.Creation

/-!
# Filling a slot

`proc.h` calls some fields of a slot private to its process: the process reads
and writes them without a lock. While a slot is under construction its creator
does the same with the fields of the slot it fills, although `spawn` gives the
slot's lock back first and sleeps many times on the way.

What makes this sound is a frame: a section of another process leaves the
private fields of a slot alone, unless it is the slot's creator, takes a free
slot or reaps a zombie (`Work.priv_eq`). So a creator finds what it stored
(`Built`), and when it makes the slot runnable everything is in place
(`Filled`). In the other direction, an exiting process has closed its
descriptors before it becomes a zombie, so a free slot has none, and the
descriptors of a new process are exactly those of its creator.
-/

namespace Xv6

open Proc ProcState

/-- The fields of a slot that are private to its process. -/
structure Priv where
  sz : ℕ
  pagetable : Bool
  trapframe : Option Trapframe
  ofile : Fin NOFILE → Option ℕ
  cwd : Option ℕ

/-- The fields of a slot that are private to its process. -/
def Proc.priv (P : Proc) : Priv := { P with }

/-- No descriptor is open. -/
def Proc.NoFiles (P : Proc) : Prop := ∀ fd, P.ofile fd = none

/-- No descriptor is open and there is no working directory. -/
def Proc.Bare (P : Proc) : Prop := P.NoFiles ∧ P.cwd = none

/-- Duplicating descriptors into a slot without any gives the same ones. -/
theorem Proc.dupFiles_of_noFiles {np P : Proc} (h : np.NoFiles) : np.dupFiles P = P.ofile := by
  funext fd
  unfold dupFiles
  split
  · next f hf => rw [hf]
  · next hf => rw [hf, h fd]

namespace Source

/-- The memory a new process gets. -/
def pages (src : Source) (m : AddrSpace) (sz : ℕ) : AddrSpace :=
  match src with
  | .fork => m.upTo sz
  | .spawn img => img.pages

/-- The size a new process gets. -/
def size (src : Source) (sz : ℕ) : ℕ :=
  match src with
  | .fork => sz
  | .spawn img => img.sz

/-- The registers a new process gets. -/
def frame (src : Source) (tf : Trapframe) : Trapframe :=
  match src with
  | .fork => Function.update tf .a0 0
  | .spawn img => spawnFrame tf img

end Source

namespace Kernel

variable {s s' : Kernel} {c : CpuId} {p j : Slot} {a : Act} {k' k : Pc}

/-! ## The frame -/

theorem Touch.priv_eq {P : Proc} (h : Touch s p k j P k') (hj : j ≠ p) (hnp : k.newProc ≠ some j) :
    P.priv = (s.proc j).priv := by
  cases h with
  | signal sig => cases sig <;> rfl
  | reparent => rfl
  | setkilled | sysret | exitFiles | exitCwd => exact absurd rfl hj
  | spawnTrapframe | spawnFiles | spawnBad | setParent | setRunnable => exact absurd rfl hnp

/-- **A section leaves alone what is private to another process**, except for
the slot it fills, a free slot and a zombie. -/
theorem Work.priv_eq (h : Work s c a p k k' s') (hj : j ≠ p) (hnp : k.newProc ≠ some j)
    (hu : (s.proc j).state ≠ .unused) (hz : (s.proc j).state ≠ .zombie) :
    (s'.proc j).priv = (s.proc j).priv ∧ s'.umem j = s.umem j := by
  constructor
  · cases h.write j with
    | same k k' hP => rw [hP]
    | touch k k' P ha ht hP => exact hP ▸ ht.priv_eq hj hnp
    | allocFail cr hfree | fork hfree | spawn hfree => exact absurd hfree hu
    | reap sel addr hzj => exact absurd hzj hz
    | own u he | waitSleep sel addr k' c he | exitZombie st c he => exact absurd he hj
  · cases h with
    | own => simp [Kernel.own, hj]
    | load np | loaded np =>
      have hi : j ≠ np := by rintro rfl; exact hnp rfl
      simp [hi]
    | fork i hl hfree | spawn i hl hfree =>
      have hi : j ≠ i := by rintro rfl; exact hu hfree
      simp [hi]
    | copyFail | reap => simp [releaseWait, hj]
    | _ => rfl

/-- The parent of such a slot changes only when the parent itself exits. -/
theorem Work.parent_eq (h : Work s c a p k k' s') (hnp : k.newProc ≠ some j)
    (hu : (s.proc j).state ≠ .unused) (hz : (s.proc j).state ≠ .zombie) :
    (s'.proc j).parent = (s.proc j).parent ∨ (s.proc j).parent = some p := by
  cases h.write j with
  | touch k k' P ha h hP =>
    rw [hP]
    cases h with
    | signal sig => cases sig <;> exact .inl rfl
    | reparent j st hp => exact .inr hp
    | setkilled | sysret | exitFiles | exitCwd => exact .inl rfl
    | spawnTrapframe | spawnFiles | spawnBad | setParent | setRunnable => exact absurd rfl hnp
  | allocFail cr hfree | fork hfree | spawn hfree => exact absurd hfree hu
  | reap sel addr hzj => exact absurd hzj hz
  | same k k' hP | own u hj hP | waitSleep sel addr k' c hj hP | exitZombie st c hj hP =>
    rw [hP]
    exact .inl rfl

/-! ## What a thread relies on -/

/-- **Slot `np` has what its creator `p` gives it**: a page table that maps the
memory of the source, its size, its registers, and the creator's descriptors
and directory. -/
structure Filled (s : Kernel) (p np : Slot) (src : Source) : Prop where
  pagetable : (s.proc np).pagetable = true
  umem : s.umem np = src.pages (s.umem p) (s.proc p).sz
  sz : (s.proc np).sz = src.size (s.proc p).sz
  trapframe : ∃ tf, (s.proc p).trapframe = some tf ∧
    (s.proc np).trapframe = some (src.frame tf)
  ofile : (s.proc np).ofile = (s.proc p).ofile
  cwd : (s.proc np).cwd = (s.proc p).cwd

/-- What the thread of process `p` relies on at a point of `fork`, `spawn` or
`exit`. -/
def Built (s : Kernel) (p : Slot) : Pc → Prop
  | .spawnLoad np | .spawnBad np =>
    (s.proc np).Bare ∧ (s.proc np).pagetable = true
  | .spawnTrapframe np img =>
    (s.proc np).Bare ∧ (s.proc np).pagetable = true ∧ s.umem np = img.pages
  | .spawnFiles np img =>
    (s.proc np).Bare ∧ (s.proc np).pagetable = true ∧ s.umem np = img.pages ∧
      (s.proc np).sz = img.sz ∧ ∃ tf, (s.proc p).trapframe = some tf ∧
        (s.proc np).trapframe = some (spawnFrame tf img)
  | .setParent np _ src => Filled s p np src
  | .setRunnable np _ src => Filled s p np src ∧ (s.proc np).parent = some p
  | .exitCwd _ => (s.proc p).NoFiles
  | .exitAcquire _ | .reparent _ _ | .exitZombie _ => (s.proc p).Bare
  | _ => True

/-- It depends on the private fields of the process and of the slot it fills,
and on whether it is the parent of that slot. -/
theorem Built.congr {b : Pc} (h : Built s p b)
    (hp : (s'.proc p).priv = (s.proc p).priv ∧ s'.umem p = s.umem p)
    (hnp : ∀ np, b.newProc = some np →
      ((s'.proc np).priv = (s.proc np).priv ∧ s'.umem np = s.umem np) ∧
        ((s'.proc np).parent = (s.proc np).parent ∨ (s.proc np).parent ≠ some p)) :
    Built s' p b := by
  obtain ⟨hpriv, humem⟩ := hp
  simp only [priv, Priv.mk.injEq] at hpriv hnp
  obtain ⟨hsz, -, htf, hof, hcwd⟩ := hpriv
  cases b with
  | spawnLoad np | spawnBad np =>
    obtain ⟨⟨⟨-, hpt', -, hof', hcwd'⟩, -⟩, -⟩ := hnp np rfl
    simpa only [Built, Proc.Bare, Proc.NoFiles, hpt', hof', hcwd'] using h
  | spawnTrapframe np =>
    obtain ⟨⟨⟨-, hpt', -, hof', hcwd'⟩, hum'⟩, -⟩ := hnp np rfl
    simpa only [Built, Proc.Bare, Proc.NoFiles, hpt', hof', hcwd', hum'] using h
  | spawnFiles np =>
    obtain ⟨⟨⟨hsz', hpt', htf', hof', hcwd'⟩, hum'⟩, -⟩ := hnp np rfl
    simpa only [Built, Proc.Bare, Proc.NoFiles, hsz', hpt', htf', hof', hcwd', hum', htf] using h
  | setParent np =>
    obtain ⟨⟨⟨hsz', hpt', htf', hof', hcwd'⟩, hum'⟩, -⟩ := hnp np rfl
    obtain ⟨h₁, h₂, h₃, h₄, h₅, h₆⟩ := h
    constructor <;> simpa only [hsz', hpt', htf', hof', hcwd', hum', hsz, htf, hof, hcwd, humem]
  | setRunnable np =>
    obtain ⟨⟨⟨hsz', hpt', htf', hof', hcwd'⟩, hum'⟩, hpar⟩ := hnp np rfl
    obtain ⟨⟨h₁, h₂, h₃, h₄, h₅, h₆⟩, h₇⟩ := h
    constructor
    · constructor <;>
        simpa only [hsz', hpt', htf', hof', hcwd', hum', hsz, htf, hof, hcwd, humem]
    · rcases hpar with hpar | hpar
      · rw [hpar, h₇]
      · exact absurd h₇ hpar
  | exitCwd => simpa only [Built, Proc.NoFiles, hof] using h
  | exitAcquire | reparent | exitZombie =>
    simpa only [Built, Proc.Bare, Proc.NoFiles, hof, hcwd] using h
  | _ => trivial

/-- **The invariant of the private fields.** -/
structure DataInv (s : Kernel) : Prop where
  /-- Free slots and zombies have neither descriptors nor a directory. -/
  unused : ∀ j, (s.proc j).state = .unused → (s.proc j).Bare
  zombie : ∀ j, (s.proc j).state = .zombie → (s.proc j).Bare
  /-- A slot that is not free has its registers. -/
  trapframe : ∀ j, (s.proc j).state = .unused ∨ (s.proc j).trapframe ≠ none
  /-- Every thread finds what it relies on. -/
  built : ∀ p k, Thread s.proc s.cpus p k → Built s p k.base

theorem DataInv.silent (D : DataInv s) (h : Silent s s') : DataInv s' := by
  have hpriv : ∀ j, (s'.proc j).priv = (s.proc j).priv := fun j =>
    congrArg (fun D : Data => ({ D with } : Priv)) (h.data j)
  have hbare : ∀ j, (s.proc j).Bare → (s'.proc j).Bare := by
    intro j hb
    have hof := congrArg Priv.ofile (hpriv j)
    have hcwd := congrArg Priv.cwd (hpriv j)
    simp only [priv] at hof hcwd
    simpa only [Proc.Bare, Proc.NoFiles, hof, hcwd] using hb
  constructor
  · exact fun j hj => hbare j (D.unused j ((h.state_iff (by decide)).mp hj))
  · exact fun j hj => hbare j (D.zombie j ((h.state_iff (by decide)).mp hj))
  · intro j
    have htf := congrArg Priv.trapframe (hpriv j)
    simp only [priv] at htf
    rw [htf]
    exact (D.trapframe j).imp_left (h.state_iff (by decide)).mpr
  · intro q k' ht
    obtain ⟨k, ht, hb⟩ := h.thread q k' ht
    rw [← hb]
    refine (D.built q k ht).congr ⟨hpriv q, by rw [h.umem]⟩ fun np _ => ?_
    exact ⟨⟨hpriv np, by rw [h.umem]⟩, .inl (h.parent np)⟩

/-- A section keeps a slot bare, unless it fills the slot or is user code of
its process. -/
theorem Work.bare (h : Work s c a p k k' s') (hj : (s.proc j).Bare) (hp : j = p → k ≠ .user)
    (hnp : k.newProc = some j → k = .spawnBad j) (hs : (s'.proc j).state ≠ .used) :
    (s'.proc j).Bare := by
  cases h.write j with
  | touch k k' P ha h hP =>
    rw [hP]
    cases h with
    | signal sig => cases sig <;> exact hj
    | exitFiles => exact ⟨fun fd => rfl, hj.2⟩
    | exitCwd => exact ⟨hj.1, rfl⟩
    | spawnBad | setkilled | sysret | reparent => exact hj
    | spawnTrapframe | spawnFiles | setParent | setRunnable => cases hnp rfl
  | own u he => exact absurd rfl (hp he)
  | fork hfree hn hP | spawn hfree hn hP => exact absurd (by rw [hP]; rfl) hs
  | same k k' hP | allocFail cr hfree hP | reap sel addr hz hP | waitSleep sel addr k' c he hP
  | exitZombie st c he hP =>
    rw [hP]
    exact hj

/-- A section leaves every slot that is not free with its registers. -/
theorem Work.trapframe (h : Work s c a p k k' s')
    (hstop : ∀ pid (j : Slot), k = .signal .sigstop pid j → a = .go → (s.proc j).pid = pid →
      (s.proc j).state ≠ .unused) (hnp : ∀ np, k.newProc = some np → (s.proc np).state = .used)
    (htf : ∀ j, (s.proc j).state = .unused ∨ (s.proc j).trapframe ≠ none)
    (hp : (s.proc p).trapframe ≠ none) (j : Slot) :
    (s'.proc j).state = .unused ∨ (s'.proc j).trapframe ≠ none := by
  have hj := htf j
  cases h.write j with
  | touch k k' P ha h hP =>
    rw [hP]
    cases h with
    | signal sig pid j hl hp =>
      cases sig with
      | sigstop => exact .inr (hj.resolve_left (hstop pid j rfl ha hp))
      | kill | sigcont => exact hj.imp_left (fun hu => by simp [Signal.body, hu])
    | spawnBad => exact .inl rfl
    | sysret => exact .inr (by simpa using hp)
    | spawnTrapframe => exact .inr (by simpa using hp)
    | setRunnable => exact .inr (by simpa [hnp j rfl] using hj)
    | setkilled | exitFiles | exitCwd | spawnFiles | setParent | reparent => exact hj
  | allocFail cr hfree hP | reap sel addr hz hP => exact .inl (by rw [hP]; rfl)
  | fork hfree hn hP => exact .inr (by simpa [hP, forkFill] using hp)
  | own u he hP | spawn hfree hn hP => exact .inr (by simp [hP, alloc])
  | waitSleep sel addr k' c he hP | exitZombie st c he hP =>
    subst he
    exact .inr (by simpa [hP] using hp)
  | same k k' hP =>
    rw [hP]
    exact hj

/-- **What the thread that moved relies on at its new point.** -/
theorem Work.built (h : Work s c a p k k' s') (hrun : (s.proc p).state = .running) (D : DataInv s)
    (hb : Built s p k) (hnp : ∀ np, k.newProc = some np → (s.proc np).state = .used) :
    Built s' p k'.base := by
  have hne : ∀ np, k.newProc = some np → p ≠ np := by
    rintro np hk rfl
    rw [hnp p hk] at hrun
    cases hrun
  have htf : ∃ tf, (s.proc p).trapframe = some tf := by
    refine Option.ne_none_iff_exists'.mp ((D.trapframe p).resolve_left ?_)
    rw [hrun]
    simp
  cases h with
  | move k k' ha h =>
    cases h with
    | spawnFail => exact hb
    | reparentNext => exact hb
    | reparentEnd => exact hb
    | _ => trivial
  | touch k j P k' ha h =>
    cases h with
    | spawnTrapframe =>
      obtain ⟨hbare, hpt, hum⟩ := hb
      obtain ⟨tf, htf⟩ := htf
      refine ⟨?_, ?_, hum, ?_, tf, ?_, ?_⟩
      · simpa [Proc.Bare, Proc.NoFiles] using hbare
      · simpa using hpt
      · simp
      · simpa [hne j rfl] using htf
      · simp [htf]
    | spawnFiles =>
      obtain ⟨hbare, hpt, hum, hsz, tf, htf, htf'⟩ := hb
      have hp := hne j rfl
      refine ⟨?_, hum, ?_, ⟨tf, ?_, ?_⟩, ?_, ?_⟩
      · simpa using hpt
      · simpa [Source.size] using hsz
      · simpa [hp] using htf
      · simpa [Source.frame] using htf'
      · simp [hp, dupFiles_of_noFiles hbare.1]
      · simp [hp]
    | setParent =>
      obtain ⟨h₁, h₂, h₃, ⟨tf, h₄, h₄'⟩, h₅, h₆⟩ := hb
      have hp := hne j rfl
      refine ⟨⟨?_, ?_, ?_, ⟨tf, ?_, ?_⟩, ?_, ?_⟩, by simp⟩
      · simpa using h₁
      · simpa [hp] using h₂
      · simpa [hp] using h₃
      · simpa [hp] using h₄
      · simpa using h₄'
      · simpa [hp] using h₅
      · simpa [hp] using h₆
    | exitFiles => exact fun fd => by simp
    | exitCwd => exact ⟨by simpa [Proc.NoFiles, Built] using hb, by simp⟩
    | reparent j =>
      have hof := update_keeps ofile (T := s.proc)
        (P := { s.proc j with parent := some s.initproc }) rfl p
      have hcwd := update_keeps cwd (T := s.proc)
        (P := { s.proc j with parent := some s.initproc }) rfl p
      simpa only [Built, Pc.base, Proc.Bare, Proc.NoFiles, goto_proc, setProc_proc, hof, hcwd]
        using hb
    | _ => trivial
  | load => exact hb
  | loaded => exact ⟨hb.1, hb.2, by simp⟩
  | fork j hl hu =>
    have hp : p ≠ j := by
      rintro rfl
      rw [hu] at hrun
      cases hrun
    obtain ⟨tf, htf⟩ := htf
    have hbare := D.unused j hu
    refine ⟨?_, ?_, ?_, ⟨tf, ?_, ?_⟩, ?_, ?_⟩
    · simp [forkFill, alloc]
    · simp [hp, Source.pages]
    · simp [hp, forkFill, Source.size]
    · simpa [hp] using htf
    · simp [forkFill, htf, Source.frame]
    · have hfiles : ((s.proc j).alloc s.nextpid).NoFiles := hbare.1
      simp [hp, forkFill, dupFiles_of_noFiles hfiles]
    · simp [hp, forkFill]
  | spawn j hl hu =>
    constructor
    · simpa [alloc, Proc.Bare, Proc.NoFiles] using D.unused j hu
    · simp [alloc]
  | acquire k k' h =>
    cases h with
    | exit => exact hb
    | wait => trivial
  | _ => trivial

theorem DataInv.work (D : DataInv s) (I : Inv s) (hok : StopsOnly stoppable s (c, a))
    (h : Section s c a p k k' s') : DataInv s' := by
  have hme := h.thread_self
  have hrun := h.running I.sched
  have hused : ∀ np, k.newProc = some np → (s.proc np).state = .used := fun _ => h.used I
  have hb : Built s p k := by
    have hb := D.built p k hme
    rwa [h.work.base_eq] at hb
  have hnot : ∀ j, (s.proc j).state.phase ≠ .used → k.newProc ≠ some j :=
    fun j hj hk => hj (by rw [hused j hk]; rfl)
  constructor
  · intro j hj
    cases h.change I.sched hok j with
    | keep hp =>
      have hu := eq_of_phase hp.symm hj (by decide)
      refine h.work.bare (D.unused j hu) ?_ ?_ (by simp [hj])
      · rintro rfl
        simp [hrun] at hu
      · exact fun hk => absurd hk (hnot j (by rw [hu]; decide))
    | discard hk =>
      subst hk
      exact h.work.bare hb.1 (by simp) (fun _ => rfl) (by simp [hj])
    | reap sel addr hk hs =>
      subst hk
      exact h.work.bare (D.zombie j hs) (by simp) (by simp [Pc.newProc, Pc.base]) (by simp [hj])
    | create hs hk hs' | publish pid src hk hk' hs' | die st he hk hk' hs' | stop pid hk hs hs' =>
      simp [hj] at hs'
  · intro j hj
    cases h.change I.sched hok j with
    | keep hp =>
      have hz := eq_of_phase hp.symm hj (by decide)
      refine h.work.bare (D.zombie j hz) ?_ ?_ (by simp [hj])
      · rintro rfl
        simp [hrun] at hz
      · exact fun hk => absurd hk (hnot j (by rw [hz]; decide))
    | die st he hk =>
      subst hk he
      exact h.work.bare hb (by simp) (by simp [Pc.newProc, Pc.base]) (by simp [hj])
    | create hs hk hs' | discard hk hk' hs' | publish pid src hk hk' hs'
    | reap sel addr hk hs hs' | stop pid hk hs hs' => simp [hj] at hs'
  · refine h.work.trapframe ?_ hused D.trapframe ((D.trapframe p).resolve_left (by simp [hrun]))
    rintro pid j rfl rfl hp hu
    have hmem := hok.state_mem h.pc hp
    simp [hu] at hmem
  · intro q k₂ ht
    rcases h.threads I hok ht with ⟨rfl, rfl⟩ | ⟨hq, ht | ⟨-, rfl⟩ | ⟨-, rfl⟩⟩
    · exact h.work.built hrun D hb hused
    · -- the thread of another process: nothing it relies on was written
      have hlive := I.sched.thread_live ht
      refine (D.built q k₂ ht).congr (h.work.priv_eq hq (hnot q ?_) ?_ ?_) fun np hnp => ?_
      · rw [hlive]
        decide
      · intro hu
        simp [hu, phase] at hlive
      · intro hu
        simp [hu, phase] at hlive
      · rw [Pc.newProc_base] at hnp
        have hu := I.make.used q k₂ np ht hnp
        have hk : k.newProc ≠ some np := fun hk => hq (I.make.unique q p k₂ k np ht hme hnp hk)
        have hne : np ≠ p := by
          rintro rfl
          simp [hrun] at hu
        refine ⟨h.work.priv_eq hne hk (by simp [hu]) (by simp [hu]), ?_⟩
        refine (h.work.parent_eq hk (by simp [hu]) (by simp [hu])).imp_right fun hp => ?_
        rw [hp]
        exact fun he => hq (Option.some.inj he).symm
    · trivial
    · trivial

theorem DataInv.boot (root : ℕ) (init : AddrSpace) : DataInv (boot root init) := by
  constructor
  · intro j hj
    by_cases h0 : j = 0
    · subst h0
      cases hj
    · rw [boot_proc root init h0]
      exact ⟨fun _ => rfl, rfl⟩
  · intro j hj
    by_cases h0 : j = 0
    · subst h0
      cases hj
    · rw [boot_proc root init h0] at hj
      cases hj
  · intro j
    by_cases h0 : j = 0
    · subst h0
      exact .inr (by simp [Kernel.boot, userinit])
    · rw [boot_proc root init h0]
      exact .inl rfl
  · rintro q k (⟨c, hc, -⟩ | ⟨-, rfl⟩)
    · cases hc
    · rw [boot_context]
      trivial

/-- **It holds in every state of a run.** -/
theorem DataInv.of_runs {ok : Kernel → Label → Prop} {root : ℕ} {init : AddrSpace}
    (h : Lts.Runs step ok (Kernel.boot root init) s)
    (hok : ∀ s l, ok s l → StopsOnly stoppable s l) : DataInv s :=
  Inv.rule h hok (DataInv.boot root init) (fun _ _ _ D hs => D.silent hs)
    (fun _ _ _ _ _ _ _ I _ D ho hw => D.work I (hok _ _ ho) hw)

/-! ## Publishing a process -/

/-- **In a run in which `sigstop` never hits a process that is `RUNNING` or
still under construction, only its creator takes a slot out of `USED`, and
makes it runnable only when it is filled.** The slot a thread is filling is
`USED`; a free slot becomes nothing else than that; and a step that ends it
either gives the slot back, at the end of a `spawn` that fails, or is the last
assignment of `fork` or `spawn`, with every field of the slot in place. -/
theorem used_until_filled {root : ℕ} {init : AddrSpace}
    (h : Lts.Runs step (StopsOnly stoppable) (boot root init) s) :
    (∀ p k np, Thread s.proc s.cpus p k → k.newProc = some np → (s.proc np).state = .used) ∧
    ∀ l s' j, StopsOnly stoppable s l → step s l = some s' → ((s.proc j).state = .unused →
        (s'.proc j).state = .unused ∨ (s'.proc j).state = .used) ∧
      ((s.proc j).state = .used → (s'.proc j).state = .used ∨
        (s'.proc j).state = .unused ∧ (s.cpus l.1).pc = .spawnBad j ∨
        (s'.proc j).state = .runnable ∧ ∃ p pid src, (s.cpus l.1).proc = some p ∧
          (s.cpus l.1).pc = .setRunnable j pid src ∧ Filled s p j src ∧
          (s.proc j).parent = some p) := by
  have I := Inv.of_runs h
  have D := DataInv.of_runs h (fun _ _ ho => ho)
  refine ⟨I.make.used, fun l s' j hok hs => ?_⟩
  rcases (step_cases hs).silent_or_work I.sched with hsil | ⟨p, k, k', hw⟩
  · constructor
    · exact fun hu => .inl ((hsil.state_iff (by decide)).mpr hu)
    · exact fun hu => .inl ((hsil.state_iff (by decide)).mpr hu)
  · have hrun := hw.running I.sched
    have hpc := hw.pc
    cases hw.change I.sched hok j with
    | keep hp =>
      constructor
      · exact fun hu => .inl (eq_of_phase hp hu (by decide))
      · exact fun hu => .inl (eq_of_phase hp hu (by decide))
    | create hs hk hs' => exact ⟨fun _ => .inr hs', fun hu => by simp [hs] at hu⟩
    | discard hk hk' hs' => exact ⟨fun _ => .inl hs', fun _ => .inr (.inl ⟨hs', hk ▸ hpc⟩)⟩
    | publish pid src hk hk' hs' =>
      subst hk
      have hused := hw.used I rfl
      obtain ⟨hfill, hparent⟩ := D.built p _ hw.thread_self
      exact ⟨fun hu => by simp [hused] at hu,
        fun _ => .inr (.inr ⟨hs', p, pid, src, hw.cur, hpc, hfill, hparent⟩)⟩
    | die st he =>
      subst he
      exact ⟨fun hu => by simp [hrun] at hu, fun hu => by simp [hrun] at hu⟩
    | reap sel addr hk hs | stop pid hk hs =>
      exact ⟨fun hu => by simp [hs] at hu, fun hu => by simp [hs] at hu⟩

/-- The theorem at work on the last assignment of a `fork`. -/
theorem used_until_filled_fork :
    ∃ s s', Lts.Runs step (StopsOnly stoppable) (boot 0 AddrSpace.empty) s ∧
      step s (0, .go) = some s' ∧ (s.proc 1).state = .used ∧ (s'.proc 1).state = .runnable ∧
      ∃ src, Filled s 0 1 src ∧ (s.proc 1).parent = some 0 := by
  obtain ⟨s, hrun, hused, hcur, hok, s', hstep, hr⟩ : ∃ s ∈ Lts.runIf step (StopsOnly stoppable)
      (boot 0 AddrSpace.empty) (forkChild.take 6), (s.proc 1).state = .used ∧
      (s.cpus 0).proc = some 0 ∧ StopsOnly stoppable s (0, .go) ∧
      ∃ s' ∈ step s (0, .go), (s'.proc 1).state = .runnable := by decide +kernel
  replace hrun := Lts.runs_of_runIf hrun
  rcases ((used_until_filled hrun).2 (0, .go) s' 1 hok hstep).2 hused with h | ⟨h, -⟩ | h
  · simp [hr] at h
  · simp [hr] at h
  · obtain ⟨-, _, _, src, hp, -, hfill, hpar⟩ := h
    rw [hcur, Option.some.injEq] at hp
    subst hp
    exact ⟨s, s', hrun, hstep, hused, hr, src, hfill, hpar⟩

/-- **`sigstop` and `sigcont` of a process that `spawn` is still creating** make
it runnable, and a processor runs it, while its creator has loaded nothing: it
has neither memory nor a size nor a parent. -/
theorem sigcont_used_runs : ∃ s, Lts.Runs step (fun _ _ => True) (boot 0 AddrSpace.empty) s ∧
      (s.cpus 0).pc.newProc = some 2 ∧ (s.cpus 2).proc = some 2 ∧
      (s.proc 2).state = .running ∧ (s.proc 2).sz = 0 ∧ (s.proc 2).parent = none :=
  Lts.exists_runs (forkChild ++ runChild 1 ++ [(0, .call .spawn), (0, .go), (0, .go), (0, .go),
    (1, .call (.sigstop 3)), (1, .go), (1, .go), (1, .go), (1, .go),
    (1, .call (.sigcont 3)), (1, .go), (1, .go), (1, .go), (1, .go),
    (2, .go), (2, .go), (2, .go)]) (by decide +kernel)

end Kernel

end Xv6
