import OsProject.Ring
import OsProject.Runs

/-!
# The console

`consoleintr` and `consoleread` of `console.c`, for any number of readers. A
reader holds the lock of the console from `acquire` until it sleeps or returns,
and a round of its loop is one step; the interrupt handler is one step. Copying
to the reader does not fail, and what is echoed is left out.

What the console does is compared with a line editor (`Editor`) that knows
nothing of the ring and its indices: it has the line being typed, the text that
has been made readable, and what readers have taken of it. The record of a run
has every keystroke, as it is typed, and every byte that a reader takes, in the
order in which they happen, and the editor is run over this record. So it is the
editor that says which keystrokes erase, when a line is complete, and when there
is no more room; `console_line_discipline` says that the console agrees with it
after every step.
-/

namespace Xv6.Console

open Option

open Function (update update_of_ne update_self update_apply)

/-- Size of the ring (`console.c`). -/
abbrev INPUT_BUF_SIZE : ℕ := 128

/-- Control-D, end of file. -/
abbrev ctrlD : UInt8 := 4

/-- Control-H, backspace. -/
abbrev ctrlH : UInt8 := 8

/-- Control-P, list the processes. -/
abbrev ctrlP : UInt8 := 16

/-- Control-U, kill the line. -/
abbrev ctrlU : UInt8 := 21

/-- The delete key. -/
abbrev delete : UInt8 := 127

abbrev newline : UInt8 := 10

abbrev carriageReturn : UInt8 := 13

/-- `cons`, without its lock. -/
structure Cons where
  buf : ℕ → UInt8
  r : UInt32
  w : UInt32
  e : UInt32

/-- What is recorded: a keystroke, a byte that a reader gets, and a reader that
meets a control-D and removes it or not. -/
inductive Event
  | key (c : UInt8)
  | deliver (id : ℕ) (ch : UInt8)
  | stop (id : ℕ) (removed : Bool)

namespace Cons

/-- The loop of `consoleintr` for control-U. In `e - w` rounds `e` comes to `w`. -/
def killLine : ℕ → Cons → Cons
  | 0, s => s
  | n + 1, s =>
    if s.e ≠ s.w ∧ s.buf ((s.e - 1).toNat % INPUT_BUF_SIZE) ≠ newline then
      killLine n { s with e := s.e - 1 }
    else s

/-- A character goes into the ring. -/
def store (s : Cons) (c : UInt8) : Cons :=
  { s with buf := update s.buf (s.e.toNat % INPUT_BUF_SIZE) c, e := s.e + 1 }

/-- The `default` case of `consoleintr`, and whether it wakes the readers up. -/
def char (s : Cons) (c : UInt8) : Cons × Bool :=
  if c ≠ 0 ∧ s.e - s.r < 128 then
    let c := if c = carriageReturn then newline else c
    let s := s.store c
    if c = newline ∨ c = ctrlD ∨ s.e - s.r = 128 then ({ s with w := s.e }, true)
    else (s, false)
  else (s, false)

/-- `consoleintr`. -/
def consoleintr (s : Cons) (c : UInt8) : Cons × Bool :=
  if c = ctrlP then (s, false)
  else if c = ctrlU then (killLine (s.e - s.w).toNat s, false)
  else if c = ctrlH ∨ c = delete then (if s.e ≠ s.w then { s with e := s.e - 1 } else s, false)
  else s.char c

end Cons

/-- Where a reader is. -/
inductive Pc
  /-- About to acquire the lock: at the start, or on the way out of `sleep`. -/
  | acquire
  /-- At the head of the loop, with the lock. -/
  | loop
  | asleep
  | returned (v : ℤ)
  deriving DecidableEq

/-- `consoleread`, with its variables `target` and `n`. -/
structure Call where
  target : ℤ
  n : ℤ
  pc : Pc

/-- The console, who holds its lock, and the readers. -/
structure State where
  cons : Cons
  lock : Option ℕ
  call : ℕ → Option Call

namespace State

/-- A reader at another place. -/
def setCall (s : State) (id : ℕ) (k : Call) : State :=
  { s with call := update s.call id (some k) }

/-- `wakeup(&cons.r)`. -/
def wakeup (s : State) : State :=
  { s with call := fun id => (s.call id).map (fun k =>
      if k.pc = .asleep then { k with pc := .acquire } else k) }

/-- `release` and `return v`. -/
def ret (s : State) (id : ℕ) (k : Call) (v : ℤ) : State :=
  { s.setCall id { k with pc := .returned v } with lock := none }

/-- `consoleread`, once there is something to read. -/
def take (s : State) (id : ℕ) (k : Call) : State × List Event :=
  let c := s.cons.buf (s.cons.r.toNat % INPUT_BUF_SIZE)
  let t := { s with cons := { s.cons with r := s.cons.r + 1 } }
  if c = ctrlD then
    if k.n < k.target then
      -- saved for next time
      ({ s with cons := { s.cons with r := s.cons.r + 1 - 1 } }.ret id k (k.target - k.n),
        [.stop id false])
    else (t.ret id k (k.target - k.n), [.stop id true])
  else
    let k := { k with n := k.n - 1 }
    if c = newline then (t.ret id k (k.target - k.n), [.deliver id c])
    else (t.setCall id k, [.deliver id c])

/-- A round of the loop of `consoleread`. -/
def consoleread (s : State) (id : ℕ) (k : Call) (killed : Bool) : State × List Event :=
  if 0 < k.n then
    if s.cons.r = s.cons.w then
      if killed then (s.ret id k (-1), [])
      else ({ s.setCall id { k with pc := .asleep } with lock := none }, [])
    else s.take id k
  else (s.ret id k (k.target - k.n), [])

end State

/-- What happens next: a keystroke, a new reader, a step of a reader whose process
is killed or not, a reader woken by `kill` or `sigcont`. -/
inductive Label
  | intr (c : UInt8)
  | start (id : ℕ) (n : ℤ)
  | run (id : ℕ) (killed : Bool)
  | wake (id : ℕ)

/-- One step, with what it adds to the record. -/
def exec (s : State) : Label → Option (State × List Event)
  | .intr c =>
    if s.lock = none then
      let (cons, wake) := s.cons.consoleintr c
      let s := { s with cons := cons }
      some (if wake then s.wakeup else s, [.key c])
    else none
  | .start id n =>
    match s.call id with
    | none => some (s.setCall id ⟨n, n, .acquire⟩, [])
    | some _ => none
  | .run id killed =>
    match s.call id with
    | none => none
    | some k =>
      match k.pc with
      | .acquire =>
        if s.lock = none then
          some ({ s.setCall id { k with pc := .loop } with lock := some id }, [])
        else none
      | .loop => some (s.consoleread id k killed)
      | _ => none
  | .wake id =>
    match s.call id with
    | none => none
    | some k => if k.pc = .asleep then some (s.setCall id { k with pc := .acquire }, []) else none

/-- One step, with what has been recorded so far. -/
def step (x : State × List Event) (l : Label) : Option (State × List Event) :=
  (exec x.1 l).map (fun y => (y.1, x.2 ++ y.2))

/-- The console before the first keystroke. -/
def init (buf : ℕ → UInt8) : State where
  cons := ⟨buf, 0, 0, 0⟩
  lock := none
  call := fun _ => none

/-! ## The line editor -/

/-- **A line editor**: the text that has been made readable so far, the line being
typed, and what readers have taken of the text. -/
structure Editor where
  ready : List UInt8
  line : List UInt8
  taken : List UInt8
  deriving DecidableEq

namespace Editor

/-- How many characters have been typed and not been taken. -/
def size (ed : Editor) : ℕ := ed.ready.length + ed.line.length - ed.taken.length

/-- The line becomes readable. -/
def commit (ed : Editor) : Editor := { ed with ready := ed.ready ++ ed.line, line := [] }

/-- A character goes to the end of the line. The line is complete at a newline, at
control-D, or when there is no more room. -/
def insert (ed : Editor) (c : UInt8) : Editor :=
  let ed := { ed with line := ed.line ++ [c] }
  if c = newline ∨ c = ctrlD ∨ ed.size = INPUT_BUF_SIZE then ed.commit else ed

/-- A keystroke. Only the line can be edited; a NUL, and any character for which there
is no room, is dropped. -/
def key (ed : Editor) (c : UInt8) : Editor :=
  if c = ctrlP then ed
  else if c = ctrlU then { ed with line := [] }
  else if c = ctrlH ∨ c = delete then { ed with line := ed.line.dropLast }
  else if c = 0 ∨ INPUT_BUF_SIZE ≤ ed.size then ed
  else ed.insert (if c = carriageReturn then newline else c)

/-- What the editor does with what is recorded. -/
def event (ed : Editor) : Event → Editor
  | .key c => ed.key c
  | .deliver _ ch => { ed with taken := ed.taken ++ [ch] }
  | .stop _ true => { ed with taken := ed.taken ++ [ctrlD] }
  | .stop _ false => ed

@[simp]
theorem taken_insert (ed : Editor) (c : UInt8) : (ed.insert c).taken = ed.taken := by
  simp only [insert, commit, apply_ite Editor.taken, ite_self]

/-- Typing takes nothing. -/
theorem taken_key (ed : Editor) (c : UInt8) : (ed.key c).taken = ed.taken := by
  simp only [key, apply_ite Editor.taken, taken_insert, ite_self]

end Editor

/-- The line editor after what has been recorded. -/
def edit (log : List Event) : Editor := log.foldl Editor.event ⟨[], [], []⟩

/-- The byte that a reader gets, if it is reader `id`. -/
def Event.got (id : ℕ) : Event → List UInt8
  | .deliver id' ch => if id' = id then [ch] else []
  | _ => []

/-- The control-D that a reader meets, if it is reader `id`, and whether it is removed. -/
def Event.met (id : ℕ) : Event → List Bool
  | .stop id' b => if id' = id then [b] else []
  | _ => []

/-- The bytes that readers have got. -/
def delivered (log : List Event) : List UInt8 :=
  log.filterMap (fun e => match e with | .deliver _ ch => some ch | _ => none)

/-- Those that one reader has got. -/
def deliveredTo (id : ℕ) (log : List Event) : List UInt8 := log.flatMap (Event.got id)

/-- The control-Ds that a reader has met, and whether it removed them. -/
def stops (id : ℕ) (log : List Event) : List Bool := log.flatMap (Event.met id)

variable {s s' : State} {log evs : List Event} {ev : Event} {id : ℕ} {k : Call} {l : Label}

@[simp] theorem edit_append (log : List Event) (ev : Event) :
    edit (log ++ [ev]) = (edit log).event ev := List.foldl_concat ..

@[simp] theorem deliveredTo_append (id : ℕ) (log : List Event) (ev : Event) :
    deliveredTo id (log ++ [ev]) = deliveredTo id log ++ ev.got id := by simp [deliveredTo]

@[simp] theorem stops_append (id : ℕ) (log : List Event) (ev : Event) :
    stops id (log ++ [ev]) = stops id log ++ ev.met id := by simp [stops]

/-! ## The ring and the editor -/

variable {c : Cons} {ed : Editor} {ch : UInt8}

/-- **The ring holds what the editor has**, from the first byte that has not been
taken, and the three indices are the ends of what has been taken, of the readable
text and of the line. -/
structure Rel (c : Cons) (ed : Editor) : Prop where
  holds : Ring.Holds INPUT_BUF_SIZE c.buf (ed.ready ++ ed.line) ed.taken.length
  r : c.r = UInt32.ofNat ed.taken.length
  w : c.w = UInt32.ofNat ed.ready.length
  e : c.e = UInt32.ofNat (ed.ready ++ ed.line).length
  order : ed.taken <+: ed.ready

namespace Rel

section

variable (R : Rel c ed)
include R

theorem line_le : (ed.ready ++ ed.line).length ≤ ed.ready.length + INPUT_BUF_SIZE :=
  R.holds.room.trans (Nat.add_le_add_right R.order.length_le _)

/-- Bytes in the ring. -/
theorem toNat_e_sub_r : (c.e - c.r).toNat = ed.size := by
  rw [R.e, R.r, Ring.toNat_ofNat_sub R.holds.le R.holds.room (by decide), List.length_append]
  rfl

/-- Bytes in the line. -/
theorem toNat_e_sub_w : (c.e - c.w).toNat = ed.line.length := by
  rw [R.e, R.w, Ring.toNat_ofNat_sub (by simp) R.line_le (by decide), List.length_append,
    Nat.add_sub_cancel_left]

/-- Readable bytes. -/
theorem toNat_w_sub_r : (c.w - c.r).toNat = ed.ready.length - ed.taken.length := by
  have hroom := R.holds.room
  rw [List.length_append] at hroom
  rw [R.w, R.r]
  exact Ring.toNat_ofNat_sub (N := INPUT_BUF_SIZE) R.order.length_le (by omega) (by decide)

theorem e_eq_w_iff : c.w = c.e ↔ ed.line = [] := by
  rw [R.e, R.w, Ring.ofNat_inj (by simp) R.line_le (by decide), List.length_append,
    List.eq_nil_iff_length_eq_zero]
  omega

/-- The tests of the code for room in the ring. -/
theorem room_iff : (c.e - c.r < 128 ↔ ¬ INPUT_BUF_SIZE ≤ ed.size) ∧
    (c.e - c.r = 128 ↔ ed.size = INPUT_BUF_SIZE) := by
  rw [UInt32.lt_iff_toNat_lt, ← UInt32.toNat_inj, R.toNat_e_sub_r]
  exact ⟨not_le.symm, Iff.rfl⟩

/-- A character that fits goes to the end of the line. -/
theorem store (hroom : ¬ INPUT_BUF_SIZE ≤ ed.size) :
    Rel (c.store ch) { ed with line := ed.line ++ [ch] } := by
  have hlt : (ed.ready ++ ed.line).length < ed.taken.length + INPUT_BUF_SIZE := by
    unfold Editor.size at hroom
    rw [List.length_append]
    omega
  refine ⟨?_, R.r, R.w, ?_, R.order⟩
  · show Ring.Holds _ (update c.buf (c.e.toNat % INPUT_BUF_SIZE) ch) _ _
    rw [R.e, Ring.toNat_ofNat_mod (by decide), ← List.append_assoc]
    exact R.holds.push hlt
  · have hlen : (ed.ready ++ (ed.line ++ [ch])).length = (ed.ready ++ ed.line).length + 1 := by
      simp [add_assoc]
    show c.e + 1 = UInt32.ofNat (ed.ready ++ (ed.line ++ [ch])).length
    rw [hlen, R.e, UInt32.ofNat_add]
    rfl

theorem commit : Rel { c with w := c.e } ed.commit := by
  have hap : ed.commit.ready ++ ed.commit.line = ed.ready ++ ed.line := List.append_nil _
  refine ⟨?_, R.r, R.e, ?_, R.order.trans (List.prefix_append _ _)⟩
  · rw [hap]
    exact R.holds
  · rw [hap]
    exact R.e

end

variable {line : List UInt8}

/-- Taking back the last character of the line. -/
theorem unstore (R : Rel c { ed with line := line ++ [ch] }) :
    Rel { c with e := c.e - 1 } { ed with line := line } := by
  have hap : ed.ready ++ (line ++ [ch]) = (ed.ready ++ line) ++ [ch] :=
    (List.append_assoc _ _ _).symm
  have hle : ed.taken.length ≤ (ed.ready ++ line).length := by
    rw [List.length_append]
    exact Nat.le_add_right_of_le R.order.length_le
  refine ⟨?_, R.r, R.w, ?_, R.order⟩
  · have H := R.holds
    rw [hap] at H
    exact H.unpush hle
  · have he := R.e
    rw [hap, List.length_append, UInt32.ofNat_add] at he
    rw [he]
    exact UInt32.add_sub_cancel _ _

/-- The character before `e` is the last one of the line. -/
theorem last (R : Rel c { ed with line := line ++ [ch] }) :
    c.buf ((c.e - 1).toNat % INPUT_BUF_SIZE) = ch := by
  have hap : ed.ready ++ (line ++ [ch]) = (ed.ready ++ line) ++ [ch] :=
    (List.append_assoc _ _ _).symm
  have he : c.e - 1 = UInt32.ofNat (ed.ready ++ line).length := R.unstore.e
  have H := R.holds
  rw [hap] at H
  have hcell := H.cell (ed.ready ++ line).length (by simp)
    (by rw [List.length_append]; exact Nat.le_add_right_of_le R.order.length_le)
  rw [he, Ring.toNat_ofNat_mod (by decide), hcell, List.getElem_concat_length rfl]

variable (R : Rel c ed)
include R

/-- A line that is not empty, with its last character apart. -/
theorem concat (hl : ed.line ≠ []) :
    Rel c { ed with line := ed.line.dropLast ++ [ed.line.getLast hl] } := by
  rw [List.dropLast_append_getLast hl]
  exact R

/-- A line that is empty stays as it is. -/
theorem nil (hl : ed.line = []) : Rel c { ed with line := [] } := by
  rw [← hl]
  exact R

theorem erase : Rel (if c.e ≠ c.w then { c with e := c.e - 1 } else c)
    { ed with line := ed.line.dropLast } := by
  by_cases hl : ed.line = []
  · rw [if_neg (not_not.mpr (R.e_eq_w_iff.mpr hl).symm), hl]
    exact R.nil hl
  · rw [if_pos (fun h => hl (R.e_eq_w_iff.mp h.symm))]
    exact (R.concat hl).unstore

/-- **Control-U kills the line**, and nothing before it. -/
theorem killLine (hplain : newline ∉ ed.line) :
    Rel (Cons.killLine ed.line.length c) { ed with line := [] } := by
  generalize hn : ed.line.length = n
  induction n generalizing c ed with
  | zero => exact R.nil (List.eq_nil_of_length_eq_zero hn)
  | succ n ih =>
    have hl : ed.line ≠ [] := fun h => by simp [h] at hn
    have R' := R.concat hl
    have hne : ed.line.getLast hl ≠ newline := fun h =>
      hplain (h ▸ List.getLast_mem hl)
    rw [Cons.killLine, if_pos ⟨fun h => hl (R.e_eq_w_iff.mp h.symm), by rw [R'.last]; exact hne⟩]
    exact @ih _ { ed with line := ed.line.dropLast } R'.unstore
      (fun h => hplain (List.dropLast_subset _ h)) (by simp [hn])

/-- **The next byte** for a reader that finds the readable text not exhausted. -/
theorem read (hne : c.r ≠ c.w) :
    ed.taken ++ [c.buf (c.r.toNat % INPUT_BUF_SIZE)] <+: ed.ready := by
  have hlt : ed.taken.length < ed.ready.length := by
    refine lt_of_le_of_ne R.order.length_le fun h => hne ?_
    rw [R.r, R.w, h]
  have hread := R.holds.read (by rw [List.length_append]; omega)
  rw [R.r, Ring.toNat_ofNat_mod (by decide), hread, List.getElem_append_left hlt]
  exact Ring.concat_getElem_prefix R.order hlt

theorem advance (hp : ed.taken ++ [ch] <+: ed.ready) :
    Rel { c with r := c.r + 1 } { ed with taken := ed.taken ++ [ch] } := by
  have hlen := hp.length_le
  rw [List.length_append, List.length_singleton] at hlen
  refine ⟨?_, ?_, R.w, R.e, hp⟩
  · rw [List.length_append]
    exact R.holds.pop (by rw [List.length_append]; omega)
  · rw [R.r, List.length_append, UInt32.ofNat_add]
    rfl

/-- **A keystroke does to the ring what it does to the editor**, and a line never has a
newline in it. -/
theorem consoleintr (hplain : newline ∉ ed.line) (ch : UInt8) :
    Rel (c.consoleintr ch).1 (ed.key ch) ∧ newline ∉ (ed.key ch).line := by
  unfold Cons.consoleintr Editor.key
  split
  · exact ⟨R, hplain⟩
  split
  · rw [R.toNat_e_sub_w]
    exact ⟨R.killLine hplain, List.not_mem_nil⟩
  split
  · exact ⟨R.erase, fun h => hplain (List.dropLast_subset _ h)⟩
  unfold Cons.char
  by_cases hroom : ch = 0 ∨ INPUT_BUF_SIZE ≤ ed.size
  · rw [if_pos hroom, if_neg (by rw [R.room_iff.1]; tauto)]
    exact ⟨R, hplain⟩
  rw [not_or] at hroom
  rw [if_neg (not_or.mpr hroom), if_pos ⟨hroom.1, R.room_iff.1.mpr hroom.2⟩]
  dsimp only
  generalize (if ch = carriageReturn then newline else ch) = ch'
  have R' : Rel (c.store ch') { ed with line := ed.line ++ [ch'] } := R.store hroom.2
  unfold Editor.insert
  simp only [R'.room_iff.2]
  split
  · exact ⟨R'.commit, List.not_mem_nil⟩
  · next hend =>
    refine ⟨R', fun hmem => ?_⟩
    rcases List.mem_append.mp hmem with hmem | hmem
    · exact hplain hmem
    · exact hend (.inl (List.mem_singleton.mp hmem).symm)

end Rel

/-! ## Readers -/

variable {got : List UInt8} {met : List Bool}

/-- **What a reader has got**: while it runs, all of a line that it has seen of it;
when it has returned, at most one line. It returns when it has got all it asked for or
a newline, when it is killed, or at a control-D. It meets at most one, which it removes
if it has got nothing, and leaves otherwise. -/
structure CallOk (k : Call) (got : List UInt8) (met : List Bool) : Prop where
  running : (∀ v, k.pc ≠ .returned v) →
    k.target - k.n = got.length ∧ newline ∉ got ∧ met = []
  done : ∀ v, k.pc = .returned v → newline ∉ got.dropLast ∧
    (v = -1 ∨ v = got.length ∧ (k.target ≤ v ∨ got.getLast? = some newline ∨ met ≠ [])) ∧
    (met = [] ∨ (met = [true] ∧ got = [] ∧ v = 0) ∨ (met = [false] ∧ got ≠ [] ∧ v = got.length))

/-- A reader that has returned. -/
theorem CallOk.of_done {v : ℤ} (hpc : k.pc = .returned v) (hline : newline ∉ got.dropLast)
    (hv : v = -1 ∨ v = got.length ∧ (k.target ≤ v ∨ got.getLast? = some newline ∨ met ≠ []))
    (hmet : met = [] ∨ (met = [true] ∧ got = [] ∧ v = 0) ∨
      (met = [false] ∧ got ≠ [] ∧ v = got.length)) : CallOk k got met := by
  refine ⟨fun h => absurd hpc (h v), fun v' hv' => ?_⟩
  obtain rfl := Pc.returned.inj (hpc.symm.trans hv')
  exact ⟨hline, hv, hmet⟩

/-- A reader that runs on. -/
theorem CallOk.setPc {pc : Pc} (h : CallOk k got met) (hk : ∀ v, k.pc ≠ .returned v)
    (hpc : ∀ v, pc ≠ .returned v) : CallOk { k with pc := pc } got met :=
  ⟨fun _ => h.running hk, fun v hv => absurd hv (hpc v)⟩

/-- A reader that returns what it has got, or is killed. -/
theorem CallOk.ret {v : ℤ} (h : CallOk k got met) (hk : ∀ v, k.pc ≠ .returned v)
    (hv : v = -1 ∨ v = k.target - k.n ∧ k.n ≤ 0) : CallOk { k with pc := .returned v } got met := by
  obtain ⟨hgot, hnl, hmet⟩ := h.running hk
  refine .of_done rfl (fun hmem => hnl (List.dropLast_subset _ hmem)) ?_ (.inl hmet)
  exact hv.imp_right fun hv => ⟨hv.1.trans hgot, .inl (by dsimp only; omega)⟩

/-- **The console, the editor and the record.** -/
structure Inv (s : State) (log : List Event) : Prop where
  rel : Rel s.cons (edit log)
  plain : newline ∉ (edit log).line
  bytes : delivered log = (edit log).taken.filter (· ≠ ctrlD)
  call : ∀ id k, s.call id = some k → CallOk k (deliveredTo id log) (stops id log)
  silent : ∀ id, s.call id = none → deliveredTo id log = [] ∧ stops id log = []

theorem Inv.init (buf : ℕ → UInt8) : Inv (init buf) [] where
  rel := ⟨.nil buf, rfl, rfl, rfl, List.prefix_refl []⟩
  plain := List.not_mem_nil
  bytes := rfl
  call := fun _ _ h => by cases h
  silent := fun _ _ => ⟨rfl, rfl⟩

section

variable (I : Inv s log)
include I

/-- **A keystroke**, of which readers know nothing. -/
theorem Inv.consoleintr (ch : UInt8) :
    Inv { s with cons := (s.cons.consoleintr ch).1 } (log ++ [.key ch]) := by
  obtain ⟨R, hplain⟩ := I.rel.consoleintr I.plain ch
  refine ⟨by rwa [edit_append], by rwa [edit_append], ?_, fun id k hk => ?_, fun id hk => ?_⟩
  · rw [edit_append, Editor.event, Editor.taken_key, ← I.bytes]
    simp [delivered]
  · simpa [Event.got, Event.met] using I.call id k hk
  · simpa [Event.got, Event.met] using I.silent id hk

/-- A step of a reader that takes nothing. -/
theorem Inv.quiet (hcons : s'.cons = s.cons)
    (hcall : ∀ id k, s'.call id = some k → CallOk k (deliveredTo id log) (stops id log))
    (hnone : ∀ id, s'.call id = none → s.call id = none) : Inv s' log where
  rel := by
    rw [hcons]
    exact I.rel
  plain := I.plain
  bytes := I.bytes
  call := hcall
  silent := fun id h => I.silent id (hnone id h)

theorem Inv.wakeup : Inv s.wakeup log := by
  refine I.quiet rfl (fun id k' hc => ?_) fun id hc => map_eq_none_iff.mp hc
  obtain ⟨k, hk, rfl⟩ := map_eq_some_iff.mp hc
  have hok := I.call id k hk
  split
  · next hpc => exact hok.setPc (by simp [hpc]) nofun
  · exact hok

variable {k' : Call}

/-- One reader elsewhere. -/
theorem Inv.setCall (hcons : s'.cons = s.cons) (hcall : s'.call = update s.call id (some k'))
    (hk' : CallOk k' (deliveredTo id log) (stops id log)) : Inv s' log := by
  refine I.quiet hcons (fun id' k₂ hc => ?_) fun id' hc => ?_
  · rw [hcall, update_apply] at hc
    split_ifs at hc with h
    · rw [h, ← some.inj hc]
      exact hk'
    · exact I.call id' k₂ hc
  · rw [hcall, update_apply] at hc
    split_ifs at hc
    exact hc

/-- **An event of one reader**: the editor follows it, and the other readers know nothing of
it. -/
theorem Inv.event (hcall : s'.call = update s.call id (some k'))
    (R : Rel s'.cons ((edit log).event ev)) (hline : ((edit log).event ev).line = (edit log).line)
    (hbytes : delivered (log ++ [ev]) = ((edit log).event ev).taken.filter (· ≠ ctrlD))
    (hother : ∀ id', id' ≠ id → ev.got id' = [] ∧ ev.met id' = [])
    (hk' : CallOk k' (deliveredTo id log ++ ev.got id) (stops id log ++ ev.met id)) :
    Inv s' (log ++ [ev]) := by
  refine ⟨by rwa [edit_append], by rw [edit_append, hline]; exact I.plain, by rwa [edit_append],
    fun id' k₂ hc => ?_, fun id' hc => ?_⟩
  · rw [hcall, update_apply] at hc
    rw [deliveredTo_append, stops_append]
    split_ifs at hc with h
    · rw [h, ← some.inj hc]
      exact hk'
    · rw [(hother id' h).1, (hother id' h).2, List.append_nil, List.append_nil]
      exact I.call id' k₂ hc
  · rw [hcall, update_apply] at hc
    rw [deliveredTo_append, stops_append]
    split_ifs at hc with h
    rw [(hother id' h).1, (hother id' h).2, List.append_nil, List.append_nil]
    exact I.silent id' hc

/-- **A reader that finds something.** -/
theorem Inv.take (hc : s.call id = some k) (hpc : k.pc = .loop) (hne : s.cons.r ≠ s.cons.w) :
    Inv (s.take id k).1 (log ++ (s.take id k).2) := by
  have hp := I.rel.read hne
  have R := I.rel.advance hp
  obtain ⟨hgot, hnl, hmet⟩ := (I.call id k hc).running (by simp [hpc])
  have hnl' : newline ∉ (deliveredTo id log).dropLast := fun h => hnl (List.dropLast_subset _ h)
  unfold State.take
  dsimp only
  generalize s.cons.buf (s.cons.r.toNat % INPUT_BUF_SIZE) = c at hp R
  have hother : ∀ id', id' ≠ id → ∀ b, (Event.deliver id c).got id' = [] ∧
      (Event.stop id b).met id' = [] := fun id' h b => by simp [Event.got, Event.met, Ne.symm h]
  split
  · next hD =>
    subst hD
    split
    · next hlt =>
      -- it has got something, and leaves the control-D
      refine I.event rfl ?_ rfl ?_ (fun id' h => ⟨rfl, (hother id' h false).2⟩) ?_
      · show Rel { s.cons with r := s.cons.r + 1 - 1 } (edit log)
        rw [UInt32.add_sub_cancel]
        exact I.rel
      · simpa [delivered, Editor.event] using I.bytes
      · have hne : deliveredTo id log ≠ [] := fun hnil => by
          rw [hnil, List.length_nil] at hgot
          omega
        rw [hmet]
        simp only [Event.got, Event.met, if_true, List.append_nil, List.nil_append]
        exact .of_done rfl hnl' (.inr ⟨hgot, .inr (.inr (by simp))⟩) (.inr (.inr ⟨rfl, hne, hgot⟩))
    · next hge =>
      have hnil : deliveredTo id log = [] := List.eq_nil_of_length_eq_zero (by omega)
      refine I.event rfl R rfl ?_ (fun id' h => ⟨rfl, (hother id' h true).2⟩) ?_
      · have := I.bytes
        simp only [delivered, Editor.event, List.filterMap_append, List.filter_append] at this ⊢
        simp [this]
      · have h0 : k.target - k.n = 0 := by rw [hgot, hnil]; rfl
        rw [hnil, hmet]
        simp only [Event.got, Event.met, if_true, List.append_nil, List.nil_append]
        exact .of_done rfl List.not_mem_nil (.inr ⟨h0, .inr (.inr (by simp))⟩)
          (.inr (.inl ⟨rfl, rfl, h0⟩))
  · next hD =>
    have hbytes : delivered (log ++ [.deliver id c]) =
        ((edit log).taken ++ [c]).filter (· ≠ ctrlD) := by
      have := I.bytes
      simp only [delivered, List.filterMap_append, List.filter_append] at this ⊢
      simp [this, hD]
    have hlen : k.target - (k.n - 1) = ((deliveredTo id log ++ [c]).length : ℤ) := by
      rw [List.length_append, List.length_singleton]
      omega
    split
    · next hnew =>
      refine I.event rfl R rfl hbytes (fun id' h => ⟨(hother id' h true).1, rfl⟩) ?_
      rw [hmet]
      simp only [Event.got, Event.met, if_true, List.append_nil]
      refine .of_done rfl ?_ (.inr ⟨hlen, .inr (.inl ?_)⟩) (.inl rfl)
      · rw [List.dropLast_concat]
        exact hnl
      · rw [List.getLast?_concat, hnew]
    · next hnew =>
      refine I.event rfl R rfl hbytes (fun id' h => ⟨(hother id' h true).1, rfl⟩) ?_
      rw [hmet]
      simp only [Event.got, Event.met, if_true, List.append_nil]
      refine ⟨fun _ => ⟨hlen, fun hmem => ?_, rfl⟩, fun v hv => absurd (hpc.symm.trans hv) nofun⟩
      rcases List.mem_append.mp hmem with hmem | hmem
      · exact hnl hmem
      · exact hnew (List.mem_singleton.mp hmem).symm

theorem Inv.consoleread (hc : s.call id = some k) (hpc : k.pc = .loop) (killed : Bool) :
    Inv (s.consoleread id k killed).1 (log ++ (s.consoleread id k killed).2) := by
  have hok := I.call id k hc
  have hrun : ∀ v, k.pc ≠ .returned v := by simp [hpc]
  unfold State.consoleread
  split
  · split
    · split
      · rw [List.append_nil]
        exact I.setCall rfl rfl (hok.ret hrun (.inl rfl))
      · rw [List.append_nil]
        exact I.setCall rfl rfl (hok.setPc hrun nofun)
    · next hne => exact I.take hc hpc hne
  · next hn =>
    rw [List.append_nil]
    exact I.setCall rfl rfl (hok.ret hrun (.inr ⟨rfl, not_lt.mp hn⟩))

/-- **One step.** -/
theorem Inv.exec (h : exec s l = some (s', evs)) : Inv s' (log ++ evs) := by
  cases l with
  | intr ch =>
    unfold Console.exec at h
    dsimp only at h
    have I' := I.consoleintr ch
    split_ifs at h
    · cases h
      exact I'.wakeup
    · cases h
      exact I'
  | start id n =>
    unfold Console.exec at h
    dsimp only at h
    split at h
    · next hc =>
      cases h
      rw [List.append_nil]
      refine I.setCall rfl rfl ?_
      rw [(I.silent id hc).1, (I.silent id hc).2]
      exact ⟨fun _ => ⟨sub_self n, List.not_mem_nil, rfl⟩, nofun⟩
    · cases h
  | run id killed =>
    unfold Console.exec at h
    dsimp only at h
    split at h
    · cases h
    · next k hc =>
      split at h
      · next hpc =>
        split_ifs at h
        cases h
        rw [List.append_nil]
        exact I.setCall rfl rfl ((I.call id k hc).setPc (by simp [hpc]) nofun)
      · next hpc =>
        have I' := I.consoleread hc hpc killed
        rwa [some.inj h] at I'
      · cases h
  | wake id =>
    unfold Console.exec at h
    dsimp only at h
    split at h
    · cases h
    · next k hc =>
      split_ifs at h with hpc
      cases h
      rw [List.append_nil]
      exact I.setCall rfl rfl ((I.call id k hc).setPc (by simp [hpc]) nofun)

end

/-- **The invariant holds along every run.** -/
theorem Inv.of_runs {buf : ℕ → UInt8} {x : State × List Event}
    (h : Lts.Runs step (fun _ _ => True) (Console.init buf, []) x) : Inv x.1 x.2 := by
  refine h.invariant (I := fun x => Inv x.1 x.2) (Inv.init buf) fun x l x' I _ hstep => ?_
  obtain ⟨⟨_, _⟩, he, rfl⟩ := map_eq_some_iff.mp hstep
  exact I.exec he

/-- **The console is a line editor.** In every run, the indices are in order and at
most `INPUT_BUF_SIZE` apart. What readers take is the beginning of the text that the
editor has made readable from the keystrokes; what is left of it is between `r` and `w`,
and the line being typed between `w` and `e`. Readers get what is taken without the
control-Ds. A read that has returned has got at most one line: all it asked for, or the
end of a line, unless it was killed or met a control-D. It has met at most one: it
removed it if it had nothing, and returned 0; otherwise it left it there. -/
theorem console_line_discipline {buf : ℕ → UInt8} {s : State} {log : List Event}
    (h : Lts.Runs step (fun _ _ => True) (init buf, []) (s, log)) :
    (s.cons.w - s.cons.r).toNat ≤ (s.cons.e - s.cons.r).toNat ∧
      (s.cons.e - s.cons.r).toNat ≤ INPUT_BUF_SIZE ∧ (edit log).taken <+: (edit log).ready ∧
      (s.cons.w - s.cons.r).toNat = (edit log).ready.length - (edit log).taken.length ∧
      (s.cons.e - s.cons.w).toNat = (edit log).line.length ∧
      delivered log = (edit log).taken.filter (· ≠ ctrlD) ∧
      ∀ id k v, s.call id = some k → k.pc = .returned v →
        newline ∉ (deliveredTo id log).dropLast ∧
        (v = -1 ∨ v = (deliveredTo id log).length ∧ (k.target ≤ v ∨
          (deliveredTo id log).getLast? = some newline ∨ stops id log ≠ [])) ∧
        (stops id log = [] ∨ (stops id log = [true] ∧ deliveredTo id log = [] ∧ v = 0) ∨
          (stops id log = [false] ∧ deliveredTo id log ≠ [] ∧
            v = (deliveredTo id log).length)) := by
  have I := Inv.of_runs h
  have hroom := I.rel.holds.room
  have horder := I.rel.order.length_le
  rw [List.length_append] at hroom
  refine ⟨?_, ?_, I.rel.order, I.rel.toNat_w_sub_r, I.rel.toNat_e_sub_w, I.bytes,
    fun id k v hc hpc => (I.call id k hc).done v hpc⟩
  · rw [I.rel.toNat_w_sub_r, I.rel.toNat_e_sub_r, Editor.size]
    omega
  · rw [I.rel.toNat_e_sub_r, Editor.size]
    omega

/-- A line is typed, corrected with backspace and control-U, and read in two reads, while the
next one is being typed. -/
theorem console_line_discipline_two_reads : ∃ s log,
    Lts.Runs step (fun _ _ => True) (init (fun _ => 0), []) (s, log) ∧
      delivered log = [97, 99, newline] ∧ edit log = ⟨[97, 99, newline], [98], [97, 99, newline]⟩ ∧
      (s.cons.w - s.cons.r).toNat = 0 ∧ (s.cons.e - s.cons.w).toNat = 1 ∧
      ∀ k v, s.call 1 = some k → k.pc = .returned v → v = -1 ∨ v = 1 := by
  obtain ⟨⟨s, log⟩, hrun, hdel, hedit, hto⟩ : ∃ x ∈ Lts.run step (init (fun _ => 0), [])
      [.intr 98, .intr ctrlU, .intr 97, .intr 98, .intr ctrlH, .intr 99, .intr carriageReturn,
       .start 0 2, .run 0 false, .run 0 false, .run 0 false, .run 0 false, .intr 98,
       .start 1 9, .run 1 false, .run 1 false],
      delivered x.2 = [97, 99, newline] ∧
        edit x.2 = ⟨[97, 99, newline], [98], [97, 99, newline]⟩ ∧
        deliveredTo 1 x.2 = [newline] := by
    decide +kernel
  replace hrun := Lts.runs_of_run hrun
  obtain ⟨-, -, -, hw, he, -, hcall⟩ := console_line_discipline hrun
  rw [hedit] at hw he
  refine ⟨s, log, hrun, hdel, hedit, hw, he, fun k v hk hpc => ?_⟩
  obtain ⟨-, hv, -⟩ := hcall 1 k v hk hpc
  rw [hto] at hv
  exact hv.imp_right And.left

/-- **One control-D can end two reads.** It is typed after a character, and no newline is
typed. The first read returns that character at the control-D and leaves it there, so
that the second read returns 0 at it. -/
theorem control_d_ends_two_reads :
    ∃ s log, Lts.Runs step (fun _ _ => True) (init (fun _ => 0), []) (s, log) ∧
      (∃ k, s.call 0 = some k ∧ k.target = 9 ∧ k.pc = .returned 1) ∧
      (∃ k, s.call 1 = some k ∧ k.target = 9 ∧ k.pc = .returned 0) ∧
      (edit log).ready = [97, ctrlD] ∧ stops 0 log = [false] ∧ stops 1 log = [true] := by
  obtain ⟨⟨s, log⟩, hrun, hp⟩ : ∃ x ∈ Lts.run step (init (fun _ => 0), [])
      [.intr 97, .intr ctrlD, .start 0 9, .run 0 false, .run 0 false, .run 0 false,
       .start 1 9, .run 1 false, .run 1 false],
      (∃ k ∈ x.1.call 0, k.target = 9 ∧ k.pc = .returned 1) ∧
      (∃ k ∈ x.1.call 1, k.target = 9 ∧ k.pc = .returned 0) ∧
      (edit x.2).ready = [97, ctrlD] ∧ stops 0 x.2 = [false] ∧ stops 1 x.2 = [true] := by
    decide +kernel
  exact ⟨s, log, Lts.runs_of_run hrun, hp⟩

end Xv6.Console
