import Mathlib.Data.List.Perm.Basic
import OsProject.Virtio

/-!
# Every request is answered once

The calls of `virtio_disk_rw`, the device and `virtio_disk_intr` share the descriptors and
two rings, whose counters have 16 bits and wrap. The invariant `Inv` looks at the calls
only through their `Stage` – which descriptors a call has, and how much of its request is
written – and at the rings through a `Ghost`: all that has ever been put into them, with
positions that do not wrap. A request is in flight while its head is in one of three
places – in the available ring, with the device, or in the used ring – and each step moves
one head from one place to the next.

The ghost also knows what has become of the request of each buffer, and `Good` says that it
is what the record of the run says, so that things happened in that order. `Good` adds the
lock; `Good.exec` is the step lemma – a step makes a good state or is blocked, and so never
panics – and `Good.of_runs` the run lemma.
-/

namespace Xv6.Virtio

open Function State List Option

/-! ## Calls -/

/-- What a call has: nothing yet, a chain of descriptors, a chain that is a request, or a
request that the device has been told of. -/
inductive Stage
  | starting
  | reserved (x : Chain)
  | formatted (x : Chain)
  | submitted (x : Chain)

namespace Stage

/-- The descriptors. -/
def chain : Stage → Option Chain
  | starting => none
  | reserved x | formatted x | submitted x => some x

/-- The request. -/
def request : Stage → Option Chain
  | starting | reserved _ => none
  | formatted x | submitted x => some x

theorem chain_of_request {g : Stage} {x : Chain} (h : g.request = some x) : g.chain = some x := by
  cases g <;> first | exact h | cases h

end Stage

def Pc.stage : Pc → Option Stage
  | .acquire none | .alloc | .asleep none => some .starting
  | .format x => some (.reserved x)
  | .publish x => some (.formatted x)
  | .acquire (some x) | .wait x | .asleep (some x) => some (.submitted x)
  | .returned => none

/-- Whether a call holds the lock. -/
def Pc.locked : Pc → Bool
  | .alloc | .format _ | .publish _ | .wait _ => true
  | .acquire _ | .asleep _ | .returned => false

namespace State

variable (s : State) (c : ℕ)

/-- The buffer and the stage of a call. -/
def view : Option (ℕ × Stage) := (s.call c).bind (fun k => k.pc.stage.map (fun g => (k.b, g)))

def locked : Bool := ((s.call c).map (fun k => k.pc.locked)).getD false

variable {s c} {k : Call}

theorem view_eq (h : s.call c = some k) :
    s.view c = k.pc.stage.map (fun g => (k.b, g)) := by
  rw [view, h, bind_some]

theorem locked_eq (h : s.call c = some k) : s.locked c = k.pc.locked := by
  rw [locked, h]
  rfl

theorem call_wakeup (s : State) (chan : Chan) (c : ℕ) : (s.wakeup chan).call c =
    (s.call c).map (fun k => if k.sleepsOn chan then k.woken else k) := rfl

theorem view_setCall (s : State) (c : ℕ) (k : Call) :
    (s.setCall c k).view = update s.view c (k.pc.stage.map (fun g => (k.b, g))) :=
  comp_update (fun o : Option Call => o.bind (fun k => k.pc.stage.map (fun g => (k.b, g))))
    s.call c (some k)

theorem locked_setCall (s : State) (c : ℕ) (k : Call) :
    (s.setCall c k).locked = update s.locked c k.pc.locked :=
  comp_update (fun o : Option Call => (o.map (fun k : Call => k.pc.locked)).getD false) s.call c
    (some k)

end State

theorem Call.stage_woken (k : Call) : k.woken.b = k.b ∧ k.woken.pc.stage = k.pc.stage ∧
    k.woken.pc.locked = k.pc.locked := by
  obtain ⟨-, -, pc⟩ := k
  cases pc with
  | asleep idx => cases idx <;> exact ⟨rfl, rfl, rfl⟩
  | _ => exact ⟨rfl, rfl, rfl⟩

/-- **Being woken changes nothing** but where a call is in `sleep`. -/
theorem State.view_wakeup (s : State) (chan : Chan) : (s.wakeup chan).view = s.view := by
  funext c
  rw [view, view, call_wakeup]
  cases s.call c with
  | none => rfl
  | some k =>
    obtain ⟨hb, hg, -⟩ := k.stage_woken
    rw [map_some, bind_some, bind_some]
    split
    · rw [hg, hb]
    · rfl

theorem State.locked_wakeup (s : State) (chan : Chan) : (s.wakeup chan).locked = s.locked := by
  funext c
  rw [locked, locked, call_wakeup]
  cases s.call c with
  | none => rfl
  | some k =>
    rw [map_some, map_some, map_some]
    split
    · rw [k.stage_woken.2.2]
    · rfl

/-! ## The invariant -/

/-- One of the descriptors of a chain. -/
def Chain.Has (x : Chain) (i : ℕ) : Prop := i = x.head ∨ i = x.data ∨ i = x.status

/-- Three different descriptors. -/
structure Chain.Ok (x : Chain) : Prop where
  lt : ∀ i, x.Has i → i < NUM
  head_ne_data : x.head ≠ x.data
  head_ne_status : x.head ≠ x.status
  data_ne_status : x.data ≠ x.status

/-- **A request for a buffer**, as the device reads it. -/
structure Formatted (desc : ℕ → Desc) (info : ℕ → Info) (b : ℕ) (x : Chain) : Prop where
  head : (desc x.head).flags &&& VRING_DESC_F_NEXT ≠ 0 ∧ (desc x.head).next = x.data
  data : (desc x.data).flags &&& VRING_DESC_F_NEXT ≠ 0 ∧ (desc x.data).next = x.status
  last : (desc x.status).flags &&& VRING_DESC_F_NEXT = 0
  addr : (desc x.data).addr = .data b ∧ (desc x.status).addr = .status x.head
  info : (info x.head).b = some b

/-- It depends on its own descriptors. -/
theorem Formatted.congr {desc desc' : ℕ → Desc} {info info' : ℕ → Info} {b : ℕ} {x : Chain}
    (r : Formatted desc info b x) (hd : ∀ i, x.Has i → desc' i = desc i)
    (hi : (info' x.head).b = (info x.head).b) : Formatted desc' info' b x := by
  have h₀ := hd x.head (.inl rfl)
  have h₁ := hd x.data (.inr (.inl rfl))
  have h₂ := hd x.status (.inr (.inr rfl))
  refine ⟨?_, ?_, ?_, ?_, ?_⟩
  · rw [h₀]
    exact r.head
  · rw [h₁]
    exact r.data
  · rw [h₂]
    exact r.last
  · rw [h₁, h₂]
    exact r.addr
  · rw [hi]
    exact r.info

/-- All that has been put into the two rings, how far it has been looked at, and how far the
request of each buffer has got. -/
structure Ghost where
  pub : List ℕ
  a : ℕ
  fin : List ℕ
  u : ℕ
  phase : ℕ → Phase

/-- The requests in flight: those that the device has not seen, those it has taken, and
those that `virtio_disk_intr` has not seen. -/
def Ghost.flight (g : Ghost) (taken : List ℕ) : List ℕ := g.pub.drop g.a ++ taken ++ g.fin.drop g.u

/-- What holds of a call. -/
structure CallOk (D : Disk) (bdisk : ℕ → Bool) (holder : ℕ → Option ℕ) (dev : Device) (g : Ghost)
    (c b : ℕ) (st : Stage) : Prop where
  /-- Its descriptors are not free. -/
  chain : ∀ {x}, st.chain = some x → x.Ok ∧ ∀ i, x.Has i → D.free i = false
  holder : holder b = some c
  request : ∀ {x}, st.request = some x → Formatted D.desc D.info b x
  formatted : ∀ {x}, st = .formatted x →
    bdisk b = true ∧ D.avail.ring (g.pub.length % NUM) = x.head
  submitted : ∀ {x}, st = .submitted x → (bdisk b = true ↔ x.head ∈ g.flight dev.taken)
  /-- A request is cleared when the disk no longer has the buffer, and completed when its head
  is in the used ring. -/
  phase : ∀ {x}, st.request = some x → g.phase b = if bdisk b = false then .cleared
    else if x.head ∈ g.fin.drop g.u then .completed else .submitted

/-- What holds of the rings. -/
structure Rings (avail used : Queue) (used_idx seen : UInt16) (g : Ghost) : Prop where
  availIdx : avail.idx = UInt16.ofNat g.pub.length
  seen : seen = UInt16.ofNat g.a
  availRing : Ring.Holds NUM avail.ring g.pub g.a
  usedIdx : used.idx = UInt16.ofNat g.fin.length
  used_idx : used_idx = UInt16.ofNat g.u
  usedRing : Ring.Holds NUM used.ring g.fin g.u

/-- A descriptor is in one chain. -/
def Disjoint (v : ℕ → Option (ℕ × Stage)) : Prop :=
  ∀ {c b st x c' b' st' x' i}, v c = some (b, st) → st.chain = some x →
    v c' = some (b', st') → st'.chain = some x' → x.Has i → x'.Has i → c = c'

/-- There is a call with `P` of its buffer and its stage. -/
def Among (v : ℕ → Option (ℕ × Stage)) (P : ℕ → Stage → Prop) : Prop :=
  ∃ c b st, v c = some (b, st) ∧ P b st

/-- **What holds between steps**, of the calls `v`. -/
structure Inv (v : ℕ → Option (ℕ × Stage)) (D : Disk) (bdisk : ℕ → Bool) (holder : ℕ → Option ℕ)
    (dev : Device) (g : Ghost) : Prop where
  call : ∀ {c b st}, v c = some (b, st) → CallOk D bdisk holder dev g c b st
  disjoint : Disjoint v
  /-- A descriptor that is not free is in a chain. -/
  used : ∀ i < NUM, D.free i = false → Among v (fun _ st => ∃ x, st.chain = some x ∧ x.Has i)
  /-- The disk does not have a buffer without a request. -/
  idle : ∀ b, Among v (fun b' st => b' = b ∧ ∃ x, st.request = some x) ∨
    (g.phase b = .idle ∧ bdisk b = false)
  flight : ∀ h ∈ g.flight dev.taken, Among v (fun _ st => ∃ x, st = .submitted x ∧ x.head = h)
  nodup : (g.flight dev.taken).Nodup
  rings : Rings D.avail D.used D.used_idx dev.seen g
  status : ∀ h ∈ g.fin.drop g.u, (D.info h).status = 0

section

variable {v : ℕ → Option (ℕ × Stage)} {P : ℕ → Stage → Prop} {c c' b : ℕ} {st : Stage}
  {n : Option (ℕ × Stage)}

/-- What is stored elsewhere is kept. -/
theorem update_kept {β : Type*} {f : ℕ → Option β} {i j : ℕ} {z : β} {o : Option β}
    (h : f j = some z) (hi : f i ≠ some z) : update f i o j = some z := by
  rw [update_of_ne]
  · exact h
  · rintro rfl
    exact hi h

/-- The calls after one of them has made a step. -/
theorem of_update {z : ℕ × Stage} (h : update v c n c' = some z) :
    (c' = c ∧ n = some z) ∨ (c' ≠ c ∧ v c' = some z) := by
  rw [update_apply] at h
  split_ifs at h with hc
  · exact .inl ⟨hc, h⟩
  · exact .inr ⟨hc, h⟩

/-- There still is such a call when another one starts. -/
theorem Among.start (h : Among v P) (hc : v c = none) : Among (update v c n) P := by
  obtain ⟨c', b', st', h', hP⟩ := h
  exact ⟨c', b', st', update_kept h' (by rw [hc]; exact nofun), hP⟩

/-- And when one of them makes a step. -/
theorem Among.step (h : Among v P) (hv : v c = some (b, st))
    (hn : P b st → ∃ b' st', n = some (b', st') ∧ P b' st') : Among (update v c n) P := by
  obtain ⟨c', b', st', h', hP⟩ := h
  by_cases hc : c' = c
  · subst hc
    rw [hv] at h'
    cases h'
    obtain ⟨b₁, st₁, rfl, hP⟩ := hn hP
    exact ⟨c', b₁, st₁, update_self .., hP⟩
  · exact ⟨c', b', st', by rw [update_of_ne hc, h'], hP⟩

end

namespace Inv

variable {v : ℕ → Option (ℕ × Stage)} {D : Disk} {bdisk : ℕ → Bool} {holder : ℕ → Option ℕ}
  {dev : Device} {g : Ghost} {c b c' b' id : ℕ} {st st' : Stage} {x : Chain} {d : ℕ → Desc}
  {n : Option (ℕ × Stage)}

/-- There are as many different descriptors. -/
theorem length_lt_num {l : List ℕ} {h : ℕ} (hnd : (h :: l).Nodup) (hlt : ∀ y ∈ h :: l, y < NUM) :
    l.length < NUM := by
  have hsub : h :: l ⊆ range NUM := fun y hy => mem_range.mpr (hlt y hy)
  have := (subperm_of_subset hnd hsub).length_le
  rwa [length_cons, length_range] at this

variable (I : Inv v D bdisk holder dev g) {f : ℕ → Bool} {h : ℕ}
include I

/-- What is in flight is the head of a chain. -/
theorem flight_lt (hh : h ∈ g.flight dev.taken) : h < NUM := by
  obtain ⟨_, _, _, hv, _, rfl, rfl⟩ := I.flight h hh
  exact ((I.call hv).chain rfl).1.lt _ (.inl rfl)

/-- The chain of a call that has not been submitted is not in flight. -/
theorem not_flight (hv : v c = some (b, st)) (hx : st.chain = some x)
    (hst : ∀ y, st ≠ .submitted y) :
    x.head ∉ g.flight dev.taken := by
  intro hh
  obtain ⟨_, _, _, hv', y, rfl, hy⟩ := I.flight _ hh
  have := I.disjoint hv hx hv' rfl (.inl rfl) (.inl hy.symm)
  subst this
  rw [hv] at hv'
  exact hst y (Prod.mk.inj (some.inj hv')).2

/-- A buffer is in one call. -/
theorem buffer_ne (hv : v c = some (b, st)) (hv' : v c' = some (b', st')) (hne : c' ≠ c) :
    b' ≠ b := by
  rintro rfl
  exact hne (some.inj ((I.call hv').holder.symm.trans (I.call hv).holder))

/-- Two calls have different descriptors. -/
theorem not_has {x' : Chain} (hv : v c = some (b, st)) (hx : st.chain = some x)
    (hv' : v c' = some (b', st')) (hx' : st'.chain = some x') (hne : c' ≠ c) {j : ℕ}
    (hj : x'.Has j) : ¬ x.Has j :=
  fun hj' => hne (I.disjoint hv' hx' hv hx hj hj')

/-- A call has a chain that is in no other call. -/
theorem disjoint_update
    (hn : ∀ {b st x c' b' st' x' i}, n = some (b, st) → st.chain = some x → c' ≠ c →
      v c' = some (b', st') → st'.chain = some x' → x'.Has i → ¬ x.Has i) :
    Disjoint (update v c n) := by
  intro c₁ b₁ st₁ x₁ c₂ b₂ st₂ x₂ i h₁ hx₁ h₂ hx₂ hi₁ hi₂
  rcases of_update h₁ with ⟨he₁, hn₁⟩ | ⟨hne₁, hv₁⟩ <;>
    rcases of_update h₂ with ⟨he₂, hn₂⟩ | ⟨hne₂, hv₂⟩
  · rw [he₁, he₂]
  · exact absurd hi₁ (hn hn₁ hx₁ hne₂ hv₂ hx₂ hi₂)
  · exact absurd hi₂ (hn hn₂ hx₂ hne₁ hv₁ hx₁ hi₁)
  · exact I.disjoint hv₁ hx₁ hv₂ hx₂ hi₁ hi₂

/-- A call starts. -/
theorem start (hc : v c = none) (hb : holder b = none) :
    Inv (update v c (some (b, .starting))) D bdisk (update holder b (some c)) dev g := by
  refine ⟨fun {c' b' st} h => ?_, I.disjoint_update (by rintro _ _ _ _ _ _ _ _ ⟨⟩ ⟨⟩),
    fun i hi hf => (I.used i hi hf).start hc, fun b' => (I.idle b').imp_left fun h => h.start hc,
    fun h hh => (I.flight h hh).start hc, I.nodup, I.rings, I.status⟩
  rcases of_update h with ⟨rfl, he⟩ | ⟨hne, h⟩
  · cases he
    exact ⟨nofun, update_self .., nofun, nofun, nofun, nofun⟩
  · have k := I.call h
    exact { k with holder := update_kept k.holder (by rw [hb]; exact nofun) }

/-- A call gets descriptors that were free. -/
theorem alloc (hv : v c = some (b, .starting)) (hx : x.Ok) (hfree : ∀ i, x.Has i → D.free i = true)
    (hf : ∀ i, f i = false ↔ D.free i = false ∨ x.Has i) :
    Inv (update v c (some (b, .reserved x))) { D with free := f } bdisk holder dev g := by
  refine ⟨fun {c' b' st'} h => ?_, I.disjoint_update ?_, fun i hi hfi => ?_,
    fun b' => (I.idle b').imp_left fun h => h.step hv (by rintro ⟨-, _, ⟨⟩⟩),
    fun h hh => (I.flight h hh).step hv (by rintro ⟨_, ⟨⟩, -⟩), I.nodup, I.rings, I.status⟩
  · rcases of_update h with ⟨rfl, he⟩ | ⟨-, h⟩
    · cases he
      refine ⟨fun he => ?_, (I.call hv).holder, nofun, nofun, nofun, nofun⟩
      cases he
      exact ⟨hx, fun i hi => (hf i).mpr (.inr hi)⟩
    · have k := I.call h
      exact { k with
        chain := fun he => ⟨(k.chain he).1, fun i hi => (hf i).mpr (.inl ((k.chain he).2 i hi))⟩ }
  · rintro b₁ st₁ x₁ c' b' st' x' i he hx₁ - h hx' hi hi'
    cases he
    cases hx₁
    have := ((I.call h).chain hx').2 i hi
    rw [hfree i hi'] at this
    cases this
  · rcases (hf i).mp hfi with hfi | hxi
    · exact (I.used i hi hfi).step hv (by rintro ⟨_, ⟨⟩, -⟩)
    · exact ⟨c, b, _, update_self .., x, rfl, hxi⟩

/-- Only the descriptors of chains matter. -/
theorem setDesc (hd : ∀ i, D.free i = false → d i = D.desc i) :
    Inv v { D with desc := d } bdisk holder dev g := by
  refine { I with call := fun h => ?_ }
  have k := I.call h
  exact { k with
    request := fun he => (k.request he).congr
      (fun i hi => hd i ((k.chain (Stage.chain_of_request he)).2 i hi)) rfl }

/-- A ring is not full when a call that has not been submitted has a chain. -/
theorem avail_room (hv : v c = some (b, st)) (hx : st.chain = some x)
    (hst : ∀ y, st ≠ .submitted y) :
    g.pub.length < g.a + NUM := by
  -- the requests in flight and this one have different descriptors
  have hlt := length_lt_num (nodup_cons.mpr ⟨I.not_flight hv hx hst, I.nodup⟩)
    (forall_mem_cons.mpr ⟨((I.call hv).chain hx).1.lt _ (.inl rfl), fun _ => I.flight_lt⟩)
  rw [Ghost.flight, length_append, length_append, length_drop] at hlt
  omega

/-- A call goes on with the descriptors that it has. -/
theorem chain_kept (hv : v c = some (b, st)) (hst : st'.chain = st.chain) :
    Disjoint (update v c (some (b, st'))) ∧ ∀ i < NUM, D.free i = false →
      Among (update v c (some (b, st'))) (fun _ st => ∃ x, st.chain = some x ∧ x.Has i) := by
  refine ⟨I.disjoint_update ?_, fun i hi hf => ?_⟩
  · rintro b₁ st₁ x₁ c' b' st'' x' i he hx₁ hne h hx' hi
    cases he
    exact I.not_has hv (hst ▸ hx₁) h hx' hne hi
  · refine (I.used i hi hf).step hv ?_
    rintro ⟨x, hx, hxi⟩
    exact ⟨b, st', rfl, x, hst.trans hx, hxi⟩

/-- The requests of the others are not touched. -/
theorem request_kept {info : ℕ → Info} (hv : v c = some (b, st)) (hx : st.chain = some x)
    (hd : ∀ i, ¬ x.Has i → d i = D.desc i) (hi : ∀ i, i ≠ x.head → info i = D.info i)
    (h : v c' = some (b', st')) (hne : c' ≠ c) {y : Chain} (he : st'.request = some y) :
    Formatted d info b' y := by
  have hy := Stage.chain_of_request he
  have hh := I.not_has hv hx h hy hne (.inl rfl)
  exact ((I.call h).request he).congr (fun i hi => hd i (I.not_has hv hx h hy hne hi))
    (congrArg Info.b (hi _ (fun he => hh (.inl he))))

/-- A buffer for which there is no request yet. -/
theorem phase_reserved (hv : v c = some (b, .reserved x)) : g.phase b = .idle := by
  refine ((I.idle b).resolve_left ?_).1
  rintro ⟨c', _, st', h, rfl, y, hy⟩
  by_cases hc : c' = c
  · rw [hc, hv] at h
    cases h
    cases hy
  · exact I.buffer_ne hv h hc rfl

/-- **A request is written**, while no other call is about to publish one. -/
theorem format (hv : v c = some (b, .reserved x)) (hno : ∀ c' b' y, v c' ≠ some (b', .formatted y))
    {f : ℕ → Info} {ops : ℕ → Op} (hreq : Formatted d f b x) (hd : ∀ i, ¬ x.Has i → d i = D.desc i)
    (hf : ∀ i, i ≠ x.head → f i = D.info i) :
    Inv (update v c (some (b, .formatted x)))
      { D with
        desc := d
        info := f
        ops := ops
        avail := { D.avail with
          ring := update D.avail.ring (D.avail.idx.toNat % NUM) x.head } }
      (update bdisk b true) holder dev { g with phase := update g.phase b .submitted } := by
  have hcell : D.avail.idx.toNat % NUM = g.pub.length % NUM := by
    rw [I.rings.availIdx]
    exact Ring.toNat_ofNat_mod₁₆ (by decide) _
  have hfl := I.not_flight hv rfl nofun
  have hroom := I.avail_room hv rfl nofun
  obtain ⟨hdisj, hused⟩ := I.chain_kept hv (rfl : (Stage.formatted x).chain = _)
  rw [hcell]
  refine ⟨fun {c' b' st'} h => ?_, hdisj, hused, fun b' => ?_,
    fun h hh => (I.flight h hh).step hv (by rintro ⟨_, ⟨⟩, -⟩), I.nodup,
    { I.rings with availRing := I.rings.availRing.write hroom }, fun h hh => ?_⟩
  · rcases of_update h with ⟨rfl, he⟩ | ⟨hne, h⟩
    · cases he
      have k := I.call hv
      refine ⟨k.chain, k.holder, fun he => ?_, fun he => ?_, nofun, fun he => ?_⟩ <;> cases he
      · exact hreq
      · exact ⟨update_self .., update_self ..⟩
      · dsimp only
        rw [update_self, update_self, if_neg (by decide),
          if_neg (fun hc => hfl (mem_append_right _ hc))]
    · have k := I.call h
      have hb := I.buffer_ne hv h hne
      refine ⟨k.chain, k.holder, I.request_kept hv rfl hd hf h hne, fun {y} he => ?_,
        fun {y} he => ?_, fun {y} he => ?_⟩
      · exact absurd (he ▸ h) (hno c' b' y)
      · rw [update_of_ne hb]
        exact k.submitted he
      · dsimp only
        rw [update_of_ne hb, update_of_ne hb]
        exact k.phase he
  · by_cases hb : b' = b
    · exact .inl ⟨c, b, _, update_self .., hb.symm, x, rfl⟩
    · dsimp only
      rw [update_of_ne hb, update_of_ne hb]
      exact (I.idle b').imp_left fun h => h.step hv (by rintro ⟨-, _, ⟨⟩⟩)
  · have hne : h ≠ x.head := by
      rintro rfl
      exact hfl (mem_append_right _ hh)
    show (f h).status = 0
    rw [hf h hne]
    exact I.status h hh

/-- **The device is told of a request.** -/
theorem publish (hv : v c = some (b, .formatted x))
    (hno : ∀ c' b' y, c' ≠ c → v c' ≠ some (b', .formatted y)) :
    Inv (update v c (some (b, .submitted x)))
      { D with avail := { D.avail with idx := D.avail.idx + 1 } } bdisk holder dev
      { g with pub := g.pub ++ [x.head] } := by
  have hfl := I.not_flight hv rfl nofun
  have hroom := I.avail_room hv rfl nofun
  obtain ⟨hbusy, hcell⟩ := (I.call hv).formatted rfl
  have hperm : List.Perm (Ghost.flight { g with pub := g.pub ++ [x.head] } dev.taken)
      (x.head :: g.flight dev.taken) := by
    unfold Ghost.flight
    rw [drop_append_of_le_length I.rings.availRing.le, append_assoc, append_assoc,
      append_assoc]
    exact perm_middle
  have hmem : ∀ h, h ∈ Ghost.flight { g with pub := g.pub ++ [x.head] } dev.taken ↔
      h = x.head ∨ h ∈ g.flight dev.taken := fun h => by rw [hperm.mem_iff, mem_cons]
  obtain ⟨hdisj, hused⟩ := I.chain_kept hv (rfl : (Stage.submitted x).chain = _)
  refine ⟨fun {c' b' st'} h => ?_, hdisj, hused,
    fun b' => (I.idle b').imp_left fun h => h.step hv fun h => ⟨b, _, rfl, h⟩, fun h hh => ?_,
    hperm.nodup_iff.mpr (nodup_cons.mpr ⟨hfl, I.nodup⟩), ?_, I.status⟩
  · rcases of_update h with ⟨rfl, he⟩ | ⟨hne, h⟩
    · cases he
      have k := I.call hv
      refine ⟨k.chain, k.holder, k.request, nofun, fun he => ?_, k.phase⟩
      cases he
      exact iff_of_true hbusy ((hmem _).mpr (.inl rfl))
    · have k := I.call h
      refine ⟨k.chain, k.holder, k.request, fun {y} he => ?_, fun {y} he => ?_, k.phase⟩
      · exact absurd (he ▸ h) (hno c' b' y hne)
      · subst he
        rw [k.submitted rfl, hmem]
        refine ⟨.inr, fun hor => hor.resolve_left (fun he => ?_)⟩
        exact I.not_has hv rfl h rfl hne (.inl rfl) (.inl he)
  · rcases (hmem h).mp hh with rfl | hh
    · exact ⟨c, b, _, update_self .., x, rfl, rfl⟩
    · exact (I.flight h hh).step hv (by rintro ⟨_, ⟨⟩, -⟩)
  · refine { I.rings with availIdx := ?_, availRing := I.rings.availRing.extend hroom hcell }
    rw [length_append, length_singleton, UInt16.ofNat_add, I.rings.availIdx]
    rfl

/-- **The device takes a request.** -/
theorem fetch (hne : dev.seen ≠ D.avail.idx) :
    Inv v D bdisk holder
      { seen := dev.seen + 1
        taken := dev.taken ++ [D.avail.ring (dev.seen.toNat % NUM)] } { g with a := g.a + 1 } := by
  have R := I.rings
  have hlt : g.a < g.pub.length := by
    refine lt_of_le_of_ne R.availRing.le fun he => hne ?_
    rw [R.seen, R.availIdx, he]
  have hhead : D.avail.ring (dev.seen.toNat % NUM) = g.pub[g.a] := by
    rw [R.seen, Ring.toNat_ofNat_mod₁₆ (by decide)]
    exact R.availRing.read hlt
  have hperm : List.Perm (Ghost.flight { g with a := g.a + 1 } (dev.taken ++ [g.pub[g.a]]))
      (g.flight dev.taken) := by
    show List.Perm (g.pub.drop (g.a + 1) ++ (dev.taken ++ [g.pub[g.a]]) ++ g.fin.drop g.u) _
    rw [Ghost.flight, drop_eq_getElem_cons hlt, cons_append, cons_append]
    refine List.Perm.trans ?_ perm_middle
    rw [append_assoc, append_assoc, singleton_append, ← append_assoc]
  rw [hhead]
  refine ⟨fun h => ?_, I.disjoint, I.used, I.idle, fun h hh => I.flight h (hperm.mem_iff.mp hh),
    hperm.nodup_iff.mpr I.nodup, { R with seen := ?_, availRing := R.availRing.pop hlt }, I.status⟩
  · have k := I.call h
    exact { k with submitted := fun he => (k.submitted he).trans hperm.mem_iff.symm }
  · rw [UInt16.ofNat_add, R.seen]
    rfl

/-- A request that the device has taken. -/
theorem of_taken {n : ℕ} (hn : dev.taken[n]? = some id) :
    ∃ c b x, v c = some (b, .submitted x) ∧ x.head = id := by
  obtain ⟨c, b, _, hv, x, rfl, hx⟩ := I.flight id
    (mem_append_left _ (mem_append_right _ (mem_of_getElem? hn)))
  exact ⟨c, b, x, hv, hx⟩

/-- The head of a request of another call. -/
theorem head_ne {y : Chain} (hv : v c = some (b, .submitted x)) (h : v c' = some (b', st'))
    (hy : st'.request = some y) (hne : c' ≠ c) : y.head ≠ x.head :=
  fun he => I.not_has hv rfl h (Stage.chain_of_request hy) hne (.inl rfl) (.inl he)

/-- A buffer with a request is another one than those that have none. -/
theorem idle_update (hv : v c = some (b, .submitted x)) (p : Phase) {bdisk' : ℕ → Bool}
    (hb : ∀ b' ≠ b, bdisk' b' = bdisk b') (b' : ℕ) :
    Among v (fun b₁ st => b₁ = b' ∧ ∃ x, st.request = some x) ∨
      (update g.phase b p b' = .idle ∧ bdisk' b' = false) := by
  by_cases hbb : b' = b
  · exact .inl ⟨c, b, _, hv, hbb.symm, x, rfl⟩
  · rw [update_of_ne hbb, hb b' hbb]
    exact I.idle b'

/-- **The device finishes a request.** -/
theorem complete {n : ℕ} (hn : dev.taken[n]? = some x.head) (hv : v c = some (b, .submitted x)) :
    g.phase b = .submitted ∧ Inv v { D with
        info := update D.info x.head { D.info x.head with status := 0 }
        used :=
          { idx := D.used.idx + 1
            ring := update D.used.ring (D.used.idx.toNat % NUM) x.head } }
      bdisk holder { dev with taken := dev.taken.eraseIdx n }
      { g with fin := g.fin ++ [x.head], phase := update g.phase b .completed } := by
  have R := I.rings
  have hmem : x.head ∈ g.pub.drop g.a ++ dev.taken := mem_append_right _ (mem_of_getElem? hn)
  have hnot : x.head ∉ g.fin.drop g.u :=
    fun h => (nodup_append.mp I.nodup).2.2 x.head hmem x.head h rfl
  have hroom : g.fin.length < g.u + NUM := by
    -- the others and this one are different descriptors
    have := length_lt_num (nodup_cons.mpr ⟨hnot, (nodup_append.mp I.nodup).2.1⟩)
      (forall_mem_cons.mpr ⟨I.flight_lt (mem_append_left _ hmem),
        fun y hy => I.flight_lt (mem_append_right _ hy)⟩)
    rw [length_drop] at this
    omega
  have hcell : D.used.idx.toNat % NUM = g.fin.length % NUM := by
    rw [R.usedIdx]
    exact Ring.toNat_ofNat_mod₁₆ (by decide) _
  have hdrop : (g.fin ++ [x.head]).drop g.u = g.fin.drop g.u ++ [x.head] :=
    drop_append_of_le_length R.usedRing.le
  have hperm : List.Perm (g.pub.drop g.a ++ dev.taken.eraseIdx n ++ (g.fin ++ [x.head]).drop g.u)
      (g.flight dev.taken) := by
    obtain ⟨hlt, he⟩ := List.getElem?_eq_some_iff.mp hn
    rw [hdrop, Ghost.flight, append_assoc, append_assoc, ← he]
    refine List.Perm.append_left _ ?_
    rw [← append_assoc]
    refine perm_append_comm.trans ?_
    rw [singleton_append, ← cons_append]
    exact List.Perm.append_right _ (getElem_cons_eraseIdx_perm hlt)
  have hinfo : ∀ h, (update D.info x.head { D.info x.head with status := 0 } h).b =
      (D.info h).b := update_keeps Info.b (by rfl)
  have hb : bdisk b = true := ((I.call hv).submitted rfl).mpr (mem_append_left _ hmem)
  refine ⟨by rw [(I.call hv).phase rfl, hb, if_neg (by decide), if_neg hnot],
    fun {c' b' st'} h => ?_, I.disjoint, I.used, I.idle_update hv _ (fun _ _ => rfl),
    fun h hh => I.flight h (hperm.mem_iff.mp hh), hperm.nodup_iff.mpr I.nodup,
    { R with usedIdx := ?_, usedRing := ?_ }, fun h hh => ?_⟩
  · have k := I.call h
    refine { k with
      request := fun he => (k.request he).congr (fun _ _ => rfl) (hinfo _)
      submitted := fun he => (k.submitted he).trans hperm.mem_iff.symm
      phase := fun {y} he => ?_ }
    show update g.phase b .completed b' = if _ then _ else if y.head ∈ (g.fin ++ _).drop g.u then _
      else _
    rw [hdrop]
    by_cases hc : c' = c
    · rw [hc, hv] at h
      cases h
      cases he
      rw [update_self, hb, if_neg (by decide), if_pos (by simp)]
    · rw [update_of_ne (I.buffer_ne hv h hc), k.phase he]
      simp only [mem_append, mem_singleton, I.head_ne hv h he hc, or_false]
  · rw [length_append, length_singleton, UInt16.ofNat_add, R.usedIdx]
    rfl
  · rw [hcell]
    exact R.usedRing.push hroom
  · show (update D.info x.head { D.info x.head with status := 0 } h).status = 0
    by_cases he : h = x.head
    · rw [he, update_self]
    · rw [update_of_ne he]
      rw [hdrop] at hh
      refine I.status h ((mem_append.mp hh).resolve_right (fun hc => he ?_))
      exact mem_singleton.mp hc

/-- The next request that `virtio_disk_intr` sees. -/
theorem of_used (hne : D.used_idx ≠ D.used.idx) :
    ∃ h : g.u < g.fin.length, D.used.ring (D.used_idx.toNat % NUM) = g.fin[g.u] ∧
      ∃ c b x, v c = some (b, .submitted x) ∧ x.head = g.fin[g.u] := by
  have R := I.rings
  have hlt : g.u < g.fin.length := by
    refine lt_of_le_of_ne R.usedRing.le fun he => hne ?_
    rw [R.used_idx, R.usedIdx, he]
  obtain ⟨c, b, _, hv, x, rfl, hx⟩ := I.flight g.fin[g.u] (mem_append_right _ (by
    rw [drop_eq_getElem_cons hlt]
    exact mem_cons_self))
  refine ⟨hlt, ?_, c, b, x, hv, hx⟩
  rw [R.used_idx, Ring.toNat_ofNat_mod₁₆ (by decide)]
  exact R.usedRing.read hlt

/-- **`virtio_disk_intr` gives a buffer back.** -/
theorem clear (hlt : g.u < g.fin.length) (hv : v c = some (b, .submitted x))
    (hx : x.head = g.fin[g.u]) :
    g.phase b = .completed ∧ Inv v { D with used_idx := D.used_idx + 1 } (update bdisk b false)
      holder dev { g with u := g.u + 1, phase := update g.phase b .cleared } := by
  have R := I.rings
  have hdrop : g.fin.drop g.u = x.head :: g.fin.drop (g.u + 1) := by
    rw [drop_eq_getElem_cons hlt, hx]
  have hperm : List.Perm (g.flight dev.taken)
      (x.head :: (g.pub.drop g.a ++ dev.taken ++ g.fin.drop (g.u + 1))) := by
    rw [Ghost.flight, hdrop]
    exact perm_middle
  have hnd := nodup_cons.mp (hperm.nodup_iff.mp I.nodup)
  have hb : bdisk b = true := ((I.call hv).submitted rfl).mpr (hperm.mem_iff.mpr mem_cons_self)
  refine ⟨by rw [(I.call hv).phase rfl, hb, if_neg (by decide), hdrop, if_pos mem_cons_self],
    fun {c' b' st'} h => ?_, I.disjoint, I.used,
    I.idle_update hv _ (fun _ hb' => update_of_ne hb' ..),
    fun h hh => I.flight h (hperm.mem_iff.mpr (mem_cons_of_mem _ hh)), hnd.2,
    { R with used_idx := ?_, usedRing := R.usedRing.pop hlt },
    fun h hh => I.status h (hdrop ▸ mem_cons_of_mem _ hh)⟩
  · have k := I.call h
    by_cases hc : c' = c
    · subst hc
      rw [hv] at h
      cases h
      refine ⟨k.chain, k.holder, k.request, nofun, fun he => ?_, fun _ => ?_⟩
      · cases he
        rw [update_self]
        exact iff_of_false Bool.false_ne_true hnd.1
      · dsimp only
        rw [update_self, update_self, if_pos rfl]
    · have hbb := I.buffer_ne hv h hc
      refine ⟨k.chain, k.holder, k.request, fun he => ?_, fun {y} he => ?_, fun {y} he => ?_⟩
      · rw [update_of_ne hbb]
        exact k.formatted he
      · subst he
        rw [update_of_ne hbb, k.submitted rfl, hperm.mem_iff, mem_cons]
        exact or_iff_right (I.head_ne hv h rfl hc)
      · dsimp only
        rw [update_of_ne hbb, update_of_ne hbb, k.phase he, hdrop]
        simp only [mem_cons, I.head_ne hv h he hc, false_or]
  · rw [UInt16.ofNat_add, R.used_idx]
    rfl

/-- **The descriptors are given back** when the disk is done with the buffer. -/
theorem finish (hv : v c = some (b, .submitted x)) (hb : bdisk b = false)
    {info : ℕ → Info} (hd : ∀ i, ¬ x.Has i → d i = D.desc i)
    (hf : ∀ i, f i = false ↔ D.free i = false ∧ ¬ x.Has i)
    (hinfo : ∀ i, i ≠ x.head → info i = D.info i) :
    g.phase b = .cleared ∧ Inv (update v c none) { D with desc := d, free := f, info := info } bdisk
      (update holder b none) dev { g with phase := update g.phase b .idle } := by
  have hfl : x.head ∉ g.flight dev.taken := by
    intro hh
    have := ((I.call hv).submitted rfl).mpr hh
    rw [hb] at this
    cases this
  refine ⟨by rw [(I.call hv).phase rfl, if_pos hb], fun {c' b' st'} h => ?_,
    I.disjoint_update (fun h => by cases h), fun i hi hfi => ?_, fun b' => ?_, fun h hh => ?_,
    I.nodup, { I.rings with }, fun h hh => ?_⟩
  · rcases of_update h with ⟨rfl, he⟩ | ⟨hne, h⟩
    · cases he
    · have k := I.call h
      have hbb := I.buffer_ne hv h hne
      refine ⟨fun {y} he => ⟨(k.chain he).1, fun i hi => ?_⟩, ?_,
        I.request_kept hv rfl hd hinfo h hne, k.formatted, k.submitted, fun {y} he => ?_⟩
      · exact (hf i).mpr ⟨(k.chain he).2 i hi, I.not_has hv rfl h he hne hi⟩
      · rw [update_of_ne hbb]
        exact k.holder
      · dsimp only
        rw [update_of_ne hbb]
        exact k.phase he
  · obtain ⟨hfi, hxi⟩ := (hf i).mp hfi
    refine (I.used i hi hfi).step hv ?_
    rintro ⟨_, ⟨⟩, hi'⟩
    exact absurd hi' hxi
  · dsimp only
    by_cases hbb : b' = b
    · rw [hbb, update_self]
      exact .inr ⟨rfl, hb⟩
    · rw [update_of_ne hbb]
      exact (I.idle b').imp_left fun h => h.step hv fun he => absurd he.1.symm hbb
  · refine (I.flight h hh).step hv ?_
    rintro ⟨_, ⟨⟩, rfl⟩
    exact absurd hh hfl
  · have hne : h ≠ x.head := by
      rintro rfl
      exact hfl (mem_append_right _ hh)
    show (info h).status = 0
    rw [hinfo h hne]
    exact I.status h hh

end Inv

/-! ## Descriptors -/

/-- Only the disk has changed, and calls have been woken. -/
structure Quiet (s s' : State) : Prop where
  view : s'.view = s.view
  locked : s'.locked = s.locked
  bdisk : s'.bdisk = s.bdisk
  holder : s'.holder = s.holder
  lock : s'.lock = s.lock
  dev : s'.dev = s.dev

namespace Quiet

variable {s s' s'' : State}

theorem disk (s : State) (D : Disk) : Quiet s { s with disk := D } := ⟨rfl, rfl, rfl, rfl, rfl, rfl⟩

theorem wakeup (s : State) (chan : Chan) : Quiet s (s.wakeup chan) :=
  ⟨s.view_wakeup chan, s.locked_wakeup chan, rfl, rfl, rfl, rfl⟩

theorem trans (h : Quiet s s') (h' : Quiet s' s'') : Quiet s s'' :=
  ⟨h'.view.trans h.view, h'.locked.trans h.locked, h'.bdisk.trans h.bdisk,
    h'.holder.trans h.holder, h'.lock.trans h.lock, h'.dev.trans h.dev⟩

end Quiet

/-- A descriptor that is free. -/
def Desc.unused : Desc := { addr := .null, len := 0, flags := 0, next := 0 }

variable {s : State}

/-- **`free_desc` of a descriptor that is not free.** -/
theorem freeDesc_eq {i : ℕ} (hi : i < NUM) (hf : s.disk.free i = false) :
    ∃ s', s.freeDesc i = .ok s' ∧ Quiet s s' ∧ s'.disk = { s.disk with
      desc := update s.disk.desc i .unused
      free := update s.disk.free i true } := by
  rw [freeDesc, if_neg hi.not_ge, if_neg (by rw [hf]; exact Bool.false_ne_true)]
  exact ⟨_, rfl, (Quiet.disk s _).trans (Quiet.wakeup _ _), rfl⟩

/-- **`free_chain` of a request** frees its three descriptors. -/
theorem freeChain_eq {x : Chain} {b rounds : ℕ} {info : ℕ → Info} (hx : x.Ok)
    (hf : ∀ i, x.Has i → s.disk.free i = false) (hreq : Formatted s.disk.desc info b x)
    (hr : 3 ≤ rounds) :
    ∃ s' d f, s.freeChain rounds x.head = .ok s' ∧ Quiet s s' ∧
      s'.disk = { s.disk with desc := d, free := f } ∧
      (∀ i, ¬ x.Has i → d i = s.disk.desc i) ∧
      (∀ i, f i = false ↔ s.disk.free i = false ∧ ¬ x.Has i) := by
  obtain ⟨rounds, rfl⟩ : ∃ n, rounds = n + 3 := ⟨rounds - 3, by omega⟩
  have hh : x.Has x.head := .inl rfl
  have hd : x.Has x.data := .inr (.inl rfl)
  have hs : x.Has x.status := .inr (.inr rfl)
  obtain ⟨s₁, h₁, q₁, e₁⟩ := freeDesc_eq (hx.lt _ hh) (hf _ hh)
  obtain ⟨s₂, h₂, q₂, e₂⟩ := freeDesc_eq (hx.lt _ hd) (by
    rw [e₁]
    exact (update_of_ne hx.head_ne_data.symm _ _).trans (hf _ hd))
  obtain ⟨s₃, h₃, q₃, e₃⟩ := freeDesc_eq (hx.lt _ hs) (by
    rw [e₂, e₁]
    refine (update_of_ne hx.data_ne_status.symm _ _).trans ?_
    exact (update_of_ne hx.head_ne_status.symm _ _).trans (hf _ hs))
  have hd₁ : s₁.disk.desc x.data = s.disk.desc x.data := by
    rw [e₁]
    exact update_of_ne hx.head_ne_data.symm _ _
  have hd₂ : s₂.disk.desc x.status = s.disk.desc x.status := by
    rw [e₂, e₁]
    refine (update_of_ne hx.data_ne_status.symm _ _).trans ?_
    exact update_of_ne hx.head_ne_status.symm _ _
  refine ⟨s₃, update (update (update s.disk.desc x.head .unused)
      x.data .unused) x.status .unused, update (update (update
      s.disk.free x.head true) x.data true) x.status true, ?_, (q₁.trans q₂).trans q₃,
    by rw [e₃, e₂, e₁], fun i hi => ?_, fun i => ?_⟩
  · rw [freeChain, h₁, ok_bind, if_pos hreq.head.1, hreq.head.2, freeChain, h₂,
      ok_bind, hd₁, if_pos hreq.data.1, hreq.data.2, freeChain, h₃, ok_bind, hd₂,
      if_neg (fun hc => hc hreq.last)]
  · rw [update_of_ne (by rintro rfl; exact hi hs),
      update_of_ne (by rintro rfl; exact hi hd),
      update_of_ne (by rintro rfl; exact hi hh)]
  · simp only [update_apply, Chain.Has]
    split_ifs with h1 h2 h3
    · simp [h1]
    · simp [h2]
    · simp [h3]
    · simp [h1, h2, h3]

/-- The state with a descriptor taken. -/
def State.take (s : State) (i : ℕ) : State :=
  { s with disk := { s.disk with free := update s.disk.free i false } }

theorem free_take (s : State) (i : ℕ) :
    (s.take i).disk.free = update s.disk.free i false := rfl

/-- What is still free after that. -/
theorem of_free_take {i j : ℕ} (h : (s.take i).disk.free j = true) :
    j ≠ i ∧ s.disk.free j = true := by
  rw [free_take, update_apply] at h
  split_ifs at h with hji
  exact ⟨hji, h⟩

theorem ne_of_free {f : ℕ → Bool} {i k : ℕ} (hi : f i = true) (hk : f k = false) : k ≠ i := by
  rintro rfl
  rw [hi] at hk
  cases hk

theorem allocDesc_cases (s : State) : s.allocDesc = none ∨
    ∃ i, i < NUM ∧ s.disk.free i = true ∧ s.allocDesc = some (s.take i, i) := by
  unfold allocDesc
  cases hf : (range NUM).find? s.disk.free with
  | none => exact .inl rfl
  | some i =>
    exact .inr ⟨i, mem_range.mp (mem_of_find?_eq_some hf), find?_some hf, rfl⟩

/-- What `alloc3_desc` does. -/
inductive Alloc3 (s : State) : Prop
  /-- It takes three free descriptors. -/
  | taken (s' : State) (x : Chain) (f : ℕ → Bool) (heq : s.alloc3Desc = .ok (s', some x))
    (quiet : Quiet s s') (disk : s'.disk = { s.disk with free := f }) (ok : x.Ok)
    (free : ∀ i, x.Has i → s.disk.free i = true)
    (hf : ∀ i, f i = false ↔ s.disk.free i = false ∨ x.Has i)
  /-- It gives back what it has taken. -/
  | none (s' : State) (d : ℕ → Desc) (heq : s.alloc3Desc = .ok (s', none)) (quiet : Quiet s s')
    (disk : s'.disk = { s.disk with desc := d })
    (hd : ∀ i, s.disk.free i = false → d i = s.disk.desc i)

/-- **`alloc3_desc` allocates three descriptors or none**, and does not panic. -/
theorem alloc3Desc_cases (s : State) : Alloc3 s := by
  have ht : ∀ (s : State) i, Quiet s (s.take i) := fun s i => Quiet.disk s _
  rcases allocDesc_cases s with h₀ | ⟨i, hi, hfi, h₀⟩
  · refine .none s s.disk.desc ?_ ⟨rfl, rfl, rfl, rfl, rfl, rfl⟩ rfl fun _ _ => rfl
    rw [alloc3Desc, h₀]
  rcases allocDesc_cases (s.take i) with h₁ | ⟨j, hj, hfj, h₁⟩
  · obtain ⟨s₁, e₁, q₁, d₁⟩ := freeDesc_eq (s := s.take i) hi (update_self ..)
    refine .none s₁ (update s.disk.desc i .unused) ?_ ((ht s i).trans q₁) ?_
      (fun k hk => update_of_ne (ne_of_free hfi hk) _ _)
    · simp only [alloc3Desc, h₀, h₁, e₁]
      rfl
    · rw [d₁, free_take, update_idem, ← hfi, update_eq_self]
      rfl
  obtain ⟨hji, hfj⟩ := of_free_take hfj
  rcases allocDesc_cases ((s.take i).take j) with h₂ | ⟨l, hl, hfl, h₂⟩
  · obtain ⟨s₁, e₁, q₁, d₁⟩ := freeDesc_eq (s := (s.take i).take j) hi (by
      rw [free_take, update_of_ne hji.symm, free_take, update_self])
    obtain ⟨s₂, e₂, q₂, d₂⟩ := freeDesc_eq hj (by
      rw [d₁]
      refine (update_of_ne hji _ _).trans ?_
      rw [free_take, update_self])
    refine .none s₂ (update (update s.disk.desc i .unused) j .unused) ?_
      ((((ht s i).trans (ht _ j)).trans q₁).trans q₂) ?_ (fun k hk => ?_)
    · simp only [alloc3Desc, h₀, h₁, h₂, e₁, ok_bind, e₂]
    · have hfree : update (update (update (update
          s.disk.free i false) j false) i true) j true = s.disk.free := by
        rw [update_comm hji.symm, update_idem, update_comm hji,
          update_idem, ← hfi, update_eq_self, hfi, ← hfj,
          update_eq_self]
      rw [d₂, d₁]
      simp only [free_take]
      rw [hfree]
      rfl
    · rw [update_of_ne (ne_of_free hfj hk), update_of_ne (ne_of_free hfi hk)]
  · obtain ⟨hlj, hfl⟩ := of_free_take hfl
    obtain ⟨hli, hfl⟩ := of_free_take hfl
    refine .taken (((s.take i).take j).take l) ⟨i, j, l⟩ (update (update
        (update s.disk.free i false) j false) l false) ?_
      (((ht s i).trans (ht _ j)).trans (ht _ l)) rfl
      ⟨?_, hji.symm, hli.symm, hlj.symm⟩ ?_ (fun k => ?_)
    · simp only [alloc3Desc, h₀, h₁, h₂]
    · rintro k (rfl | rfl | rfl) <;> assumption
    · rintro k (rfl | rfl | rfl) <;> assumption
    · simp only [update_apply, Chain.Has]
      split_ifs with h1 h2 h3
      · simp [h1]
      · simp [h2]
      · simp [h3]
      · simp [h1, h2, h3]

/-! ## Steps -/

/-- **What holds of a state and the record of what has happened.** -/
structure Good (s : State) (log : List Event) (g : Ghost) : Prop where
  inv : Inv s.view s.disk s.bdisk s.holder s.dev g
  lock : ∀ c, s.locked c = true → s.lock = some (.call c)
  phases : phases log = some g.phase

theorem phases_append {log : List Event} {φ φ' : ℕ → Phase} {e : Event} (h : phases log = some φ)
    (he : Phase.next φ e = some φ') : phases (log ++ [e]) = some φ' := by
  unfold phases at h ⊢
  rw [foldlM_append, h]
  show (Phase.next φ e >>= pure) = some φ'
  rw [he]
  rfl

/-- What a step may do: make a good state, or not be possible. -/
def Fine (log : List Event) (r : Except Stop (State × List Event)) : Prop :=
  r = .error .blocked ∨ ∃ s ev g, r = .ok (s, ev) ∧ Good s (log ++ ev) g

/-- A step that is not recorded. -/
theorem Good.fine {log : List Event} {g : Ghost} (G : Good s log g) :
    Fine log (.ok (s, [])) := by
  refine .inr ⟨s, [], g, rfl, ?_⟩
  rw [append_nil]
  exact G

namespace Good

variable {log : List Event} {g : Ghost} {c : ℕ} {k : Call}

theorem eq_of_locked (G : Good s log g) {c' : ℕ} (h : s.locked c = true)
    (h' : s.locked c' = true) : c' = c := by
  have := (G.lock c' h').symm.trans (G.lock c h)
  exact Holder.call.inj (some.inj this)

/-- What has to be shown of a state whose calls are `v`. -/
theorem of_view {v : ℕ → Option (ℕ × Stage)} (hv : s.view = v)
    (I : Inv v s.disk s.bdisk s.holder s.dev g)
    (hl : ∀ c, s.locked c = true → s.lock = some (.call c))
    (hph : Virtio.phases log = some g.phase) : Good s log g := by
  subst hv
  exact ⟨I, hl, hph⟩

/-- A call at a point of its code. -/
theorem at_pc {pc : Pc} {st : Option Stage} {l : Bool} (h : s.call c = some k) (hpc : k.pc = pc)
    (hst : pc.stage = st) (hl : pc.locked = l) :
    s.view c = st.map (fun g => (k.b, g)) ∧ s.locked c = l := by
  rw [view_eq h, locked_eq h, hpc, hst, hl]
  exact ⟨rfl, rfl⟩

/-- A call of the same stage at another place. -/
theorem view_same (h : s.call c = some k) {k' : Call} (hb : k'.b = k.b)
    (hg : k'.pc.stage = k.pc.stage) : (s.setCall c k').view = s.view := by
  rw [view_setCall, hb, hg, ← view_eq h, update_eq_self]

section

variable (G : Good s log g)
include G

/-- A call releases the lock. -/
theorem lock_released (hl : s.locked c = true) (s' : State)
    (h : s'.locked = update s.locked c false) :
    ∀ c', s'.locked c' = true → s'.lock = some (.call c') := by
  intro c' hc'
  rw [h] at hc'
  rw [update_apply] at hc'
  split_ifs at hc' with hc
  exact absurd (G.eq_of_locked hl hc') hc

/-- A call keeps the lock. -/
theorem lock_kept (hl : s.locked c = true) {s' : State} (hlock : s'.lock = s.lock)
    (h : s'.locked = update s.locked c true) :
    ∀ c', s'.locked c' = true → s'.lock = some (.call c') := by
  rw [← hl, update_eq_self] at h
  rw [h, hlock]
  exact G.lock

/-- `acquire`. -/
theorem acquire (h : s.call c = some k) {idx : Option Chain} (hpc : k.pc = .acquire idx) :
    Fine log (s.run c k) := by
  rw [run, hpc]
  dsimp only
  by_cases hl : s.lock = none
  swap
  · rw [if_neg hl]
    exact .inl rfl
  rw [if_pos hl]
  have hv : (s.setCall c { k with pc := .resume idx }).view = s.view :=
    view_same h rfl (by rw [hpc]; cases idx <;> rfl)
  refine Good.fine (.of_view hv G.inv (fun c' hc' => ?_) G.phases)
  change (s.setCall c _).locked c' = true at hc'
  rw [locked_setCall] at hc'
  by_cases hc : c' = c
  · rw [hc]
  · rw [update_of_ne hc] at hc'
    have := G.lock c' hc'
    rw [hl] at this
    cases this

/-- `alloc3_desc`. -/
theorem alloc (h : s.call c = some k) (hpc : k.pc = .alloc) : Fine log (s.run c k) := by
  obtain ⟨hv, hl⟩ : s.view c = some (k.b, .starting) ∧ s.locked c = true := at_pc h hpc rfl rfl
  rw [run, hpc]
  rcases alloc3Desc_cases s with ⟨s', x, _, heq, q, hd, hx, hfree, hf⟩ | ⟨s', d, heq, q, hd, hdesc⟩
  · rw [heq]
    have I := G.inv.alloc hv hx hfree hf
    have hview : (s'.setCall c { k with pc := .format x }).view =
        update s.view c (some (k.b, .reserved x)) := by
      rw [view_setCall, q.view]
      rfl
    refine Good.fine (.of_view hview (?_ : Inv _ s'.disk s'.bdisk s'.holder s'.dev g)
      (G.lock_kept hl q.lock ?_) G.phases)
    · rw [hd, q.bdisk, q.holder, q.dev]
      exact I
    · rw [locked_setCall, q.locked]
      rfl
  · rw [heq]
    have I := G.inv.setDesc hdesc
    have hview : (s'.setCall c { k with pc := .asleep none }).view = s.view := by
      rw [view_setCall, q.view]
      show update s.view c (some (k.b, .starting)) = s.view
      rw [← hv, update_eq_self]
    refine Good.fine (.of_view hview (?_ : Inv _ s'.disk s'.bdisk s'.holder s'.dev g)
      (G.lock_released hl _ ((locked_setCall ..).trans ?_)) G.phases)
    · rw [hd, q.bdisk, q.holder, q.dev]
      exact I
    · rw [q.locked]
      rfl

/-- While a call has the lock, no other one is about to publish a request. -/
theorem not_formatted (hl : s.locked c = true) {c' b : ℕ} {y : Chain} (hne : c' ≠ c) :
    s.view c' ≠ some (b, .formatted y) := by
  intro hv
  refine hne (G.eq_of_locked hl ?_)
  cases hk : s.call c' with
  | none =>
    rw [view, hk] at hv
    cases hv
  | some k' =>
    rw [view_eq hk] at hv
    obtain ⟨_, _, pc⟩ := k'
    rw [locked_eq hk]
    cases pc with
    | publish => rfl
    | acquire idx => cases idx <;> cases hv
    | asleep idx => cases idx <;> cases hv
    | _ => cases hv

end

/-- The descriptors that `virtio_disk_rw` writes are a request. -/
theorem formatted_format {x : Chain} (hx : x.Ok) (s : State) (k : Call) :
    Formatted (s.format k x).disk.desc (s.format k x).disk.info k.b x := by
  have h₂ : (s.format k x).disk.desc x.status =
      { addr := .status x.head, len := 1, flags := VRING_DESC_F_WRITE, next := 0 } :=
    update_self ..
  have h₁ : (s.format k x).disk.desc x.data =
      { addr := .data k.b
        len := Blocks.BSIZE
        flags := (if k.write then 0 else VRING_DESC_F_WRITE) ||| VRING_DESC_F_NEXT
        next := x.status } :=
    (update_of_ne hx.data_ne_status ..).trans (update_self ..)
  have h₀ : (s.format k x).disk.desc x.head =
      { addr := .op x.head, len := 16, flags := VRING_DESC_F_NEXT, next := x.data } :=
    (update_of_ne hx.head_ne_status ..).trans
      ((update_of_ne hx.head_ne_data ..).trans (update_self ..))
  have hi : (s.format k x).disk.info x.head = { b := some k.b, status := 0xff } :=
    update_self ..
  refine ⟨?_, ?_, ?_, ?_, by rw [hi]⟩
  · rw [h₀]
    exact ⟨(by decide : VRING_DESC_F_NEXT &&& VRING_DESC_F_NEXT ≠ 0), rfl⟩
  · rw [h₁]
    refine ⟨?_, rfl⟩
    show ((if k.write then 0 else VRING_DESC_F_WRITE) ||| VRING_DESC_F_NEXT) &&&
      VRING_DESC_F_NEXT ≠ 0
    cases k.write <;> decide
  · rw [h₂]
    exact (by decide : VRING_DESC_F_WRITE &&& VRING_DESC_F_NEXT = 0)
  · rw [h₁, h₂]
    exact ⟨rfl, rfl⟩

section

variable (G : Good s log g)
include G

section

variable (h : s.call c = some k) {x : Chain}
include h

/-- The request is written. -/
theorem format (hpc : k.pc = .format x) : Fine log (s.run c k) := by
  obtain ⟨hv, hl⟩ : s.view c = some (k.b, .reserved x) ∧ s.locked c = true := at_pc h hpc rfl rfl
  rw [run, hpc]
  have hx := ((G.inv.call hv).chain rfl).1
  have hview : ((s.format k x).setCall c { k with pc := .publish x }).view =
      update s.view c (some (k.b, .formatted x)) := by
    rw [view_setCall]
    rfl
  refine .inr ⟨_, _, { g with phase := update g.phase k.b .submitted }, rfl, .of_view hview ?_
    (G.lock_kept hl rfl (locked_setCall ..)) (phases_append G.phases ?_)⟩
  · refine G.inv.format hv (fun c' b' y => ?_) (formatted_format hx s k) (fun i hi => ?_)
      (fun i hi => update_of_ne hi _ _)
    · by_cases hc : c' = c
      · rw [hc, hv]
        exact nofun
      · exact G.not_formatted hl hc
    · refine (update_of_ne (fun he => hi (.inr (.inr he))) _ _).trans ?_
      refine (update_of_ne (fun he => hi (.inr (.inl he))) _ _).trans ?_
      exact update_of_ne (fun he => hi (.inl he)) _ _
  · rw [Phase.next, if_pos (G.inv.phase_reserved hv)]

/-- The device is told of the request. -/
theorem publish (hpc : k.pc = .publish x) : Fine log (s.run c k) := by
  obtain ⟨hv, hl⟩ : s.view c = some (k.b, .formatted x) ∧ s.locked c = true := at_pc h hpc rfl rfl
  rw [run, hpc]
  have hview : (s.setCall c { k with pc := .wait x }).view =
      update s.view c (some (k.b, .submitted x)) := by
    rw [view_setCall]
    rfl
  exact Good.fine (.of_view hview (G.inv.publish hv (fun c' b' y hne => G.not_formatted hl hne))
    (G.lock_kept hl rfl (locked_setCall ..)) G.phases)

/-- The call sleeps or returns. -/
theorem wait (hpc : k.pc = .wait x) : Fine log (s.run c k) := by
  obtain ⟨hv, hl⟩ : s.view c = some (k.b, .submitted x) ∧ s.locked c = true := at_pc h hpc rfl rfl
  rw [run, hpc]
  dsimp only
  split_ifs with hb
  · have hview : (s.setCall c { k with pc := .asleep (some x) }).view = s.view :=
      view_same h rfl (by rw [hpc]; rfl)
    exact Good.fine (.of_view hview G.inv (G.lock_released hl _ (locked_setCall ..)) G.phases)
  have hb' : s.bdisk k.b = false := Bool.eq_false_iff.mpr hb
  have hk := G.inv.call hv
  obtain ⟨hx, hfree⟩ := hk.chain rfl
  obtain ⟨s', _, _, heq, q, hdisk, hd, hf⟩ := freeChain_eq (s := { s with disk := { s.disk with
    info := update s.disk.info x.head { s.disk.info x.head with b := none } } })
    hx hfree (hk.request rfl) (by decide : 3 ≤ NUM + 1)
  have hinfo : ∀ i, i ≠ x.head → update s.disk.info x.head
      { s.disk.info x.head with b := none } i = s.disk.info i :=
    fun i hi => update_of_ne hi _ _
  obtain ⟨hcleared, hfin⟩ := G.inv.finish hv hb' hd hf hinfo
  rw [finish, heq]
  have hview : (s'.setCall c { k with pc := .returned }).view = update s.view c none := by
    rw [view_setCall, q.view]
    rfl
  refine .inr ⟨_, _, { g with phase := update g.phase k.b .idle }, rfl, .of_view hview
    (?_ : Inv _ s'.disk s'.bdisk (update s'.holder k.b none) s'.dev _)
    (G.lock_released hl _ ((locked_setCall ..).trans ?_)) (phases_append G.phases ?_)⟩
  · rw [hdisk, q.bdisk, q.holder, q.dev]
    exact hfin
  · rw [q.locked]
    rfl
  · rw [Phase.next, if_pos hcleared]

/-- **A step of a call.** -/
theorem run : Fine log (s.run c k) := by
  cases hpc : k.pc with
  | acquire => exact G.acquire h hpc
  | alloc => exact G.alloc h hpc
  | format => exact G.format h hpc
  | publish => exact G.publish h hpc
  | wait => exact G.wait h hpc
  | asleep | returned =>
    rw [State.run, hpc]
    exact .inl rfl

end

/-- A call starts. -/
theorem start {b : ℕ} (write : Bool) (hc : s.call c = none) (hb : s.holder b = none) :
    Good { s.setCall c { b := b, write := write, pc := .acquire none } with
      holder := update s.holder b (some c) } log g := by
  have hv : s.view c = none := by rw [view, hc, bind_none]
  have hl : s.locked c = false := by rw [locked, hc]; rfl
  have hview : (s.setCall c { b := b, write := write, pc := .acquire none }).view =
      update s.view c (some (b, .starting)) := view_setCall ..
  refine .of_view hview (G.inv.start hv hb) ?_ G.phases
  show ∀ c', (s.setCall c { b := b, write := write, pc := .acquire none }).locked c' = true → _
  rw [locked_setCall]
  show ∀ c', update s.locked c false c' = true → _
  rw [← hl, update_eq_self]
  exact G.lock

/-- Nothing but where calls sleep has changed. -/
theorem quiet {s' : State} (q : Quiet s s') (hd : s'.disk = s.disk) : Good s' log g := by
  refine ⟨?_, ?_, G.phases⟩
  · rw [q.view, q.bdisk, q.holder, q.dev, hd]
    exact G.inv
  · rw [q.locked, q.lock]
    exact G.lock

/-- A call is woken. -/
theorem wake (h : s.call c = some k) : Good (s.setCall c k.woken) log g := by
  obtain ⟨hb, hg, hl⟩ := k.stage_woken
  refine G.quiet ⟨view_same h hb hg, ?_, rfl, rfl, rfl, rfl⟩ rfl
  rw [locked_setCall, hl, ← locked_eq h, update_eq_self]

/-- The device finishes a request, which is one that it can read. -/
theorem complete (n : ℕ) : Fine log (s.complete n) := by
  unfold State.complete
  cases hn : s.dev.taken[n]? with
  | none => exact .inl rfl
  | some =>
    obtain ⟨_, b, x, hv, rfl⟩ := G.inv.of_taken hn
    have hr := (G.inv.call hv).request rfl
    obtain ⟨hsub, I⟩ := G.inv.complete hn hv
    dsimp only
    rw [hr.head.2, hr.data.2, hr.addr.1, hr.addr.2]
    refine .inr ⟨_, _, _, rfl, I, G.lock, phases_append G.phases ?_⟩
    rw [Phase.next, if_pos hsub]

/-- A round of `virtio_disk_intr` finds a request that is done. -/
theorem intrRound_eq (hidx : s.disk.used_idx ≠ s.disk.used.idx) :
    ∃ (hlt : g.u < g.fin.length) (c b : ℕ) (x : Chain), s.view c = some (b, .submitted x) ∧
      x.head = g.fin[g.u] ∧ s.intrRound = .ok ({ s with
        bdisk := update s.bdisk b false
        disk := { s.disk with used_idx := s.disk.used_idx + 1 } }.wakeup (.buf b),
          [.cleared b]) := by
  obtain ⟨hlt, hid, c, b, x, hv, hx⟩ := G.inv.of_used hidx
  have hst : (s.disk.info x.head).status = 0 := by
    refine G.inv.status _ ?_
    rw [hx, drop_eq_getElem_cons hlt]
    exact mem_cons_self
  refine ⟨hlt, c, b, x, hv, hx, ?_⟩
  rw [State.intrRound, if_neg hidx, hid, ← hx]
  simp only [hst, ((G.inv.call hv).request rfl).info]
  rfl

/-- What holds after the round. -/
theorem intrRound (hl : s.lock = some .intr) : Fine log s.intrRound := by
  by_cases hidx : s.disk.used_idx = s.disk.used.idx
  · rw [State.intrRound, if_pos hidx]
    refine Good.fine ⟨G.inv, fun c hc => ?_, G.phases⟩
    have := G.lock c hc
    rw [hl] at this
    cases this
  obtain ⟨hlt, c, b, x, hv, hx, hrun⟩ := G.intrRound_eq hidx
  obtain ⟨hcomp, I⟩ := G.inv.clear hlt hv hx
  have G' : Good { s with
      bdisk := update s.bdisk b false
      disk := { s.disk with used_idx := s.disk.used_idx + 1 } } (log ++ [.cleared b])
      { g with u := g.u + 1, phase := update g.phase b .cleared } := by
    refine ⟨I, G.lock, phases_append G.phases ?_⟩
    rw [Phase.next, if_pos hcomp]
  rw [hrun]
  exact .inr ⟨_, _, _, rfl, G'.quiet (Quiet.wakeup _ _) rfl⟩

/-- **A step makes a good state**, or is not possible yet. -/
theorem exec (l : Label) : Fine log (s.exec l) := by
  cases l with
  | start c b write =>
    rw [State.exec]
    split
    · next h => exact (G.start write h.1 h.2).fine
    · exact .inl rfl
  | run c =>
    rw [State.exec]
    cases hk : s.call c with
    | none => exact .inl rfl
    | some => exact G.run hk
  | wake c =>
    rw [State.exec]
    cases hk : s.call c with
    | none => exact .inl rfl
    | some => exact (G.wake hk).fine
  | fetch =>
    rw [State.exec, State.fetch]
    split_ifs with h
    · exact .inl rfl
    · exact Good.fine ⟨G.inv.fetch h, G.lock, G.phases⟩
  | complete n => exact G.complete n
  | intr =>
    rw [State.exec]
    split_ifs with h
    · refine Good.fine ⟨G.inv, fun c hc => ?_, G.phases⟩
      have := G.lock c hc
      rw [h] at this
      cases this
    · exact .inl rfl
  | intrRound =>
    rw [State.exec]
    split_ifs with h
    · exact G.intrRound h
    · exact .inl rfl

end

/-- After `virtio_disk_init`. -/
theorem boot (blockno : ℕ → ℕ) :
    Good (boot blockno) [] { pub := [], a := 0, fin := [], u := 0, phase := fun _ => .idle } := by
  refine ⟨⟨nofun, nofun, fun i hi hf => ?_, fun _ => .inr ⟨rfl, rfl⟩, nofun, nodup_nil, ?_, nofun⟩,
    nofun, rfl⟩
  · exact absurd (decide_eq_true hi) (by rw [show decide (i < NUM) = false from hf]; decide)
  · exact ⟨rfl, rfl, Ring.Holds.nil _, rfl, rfl, Ring.Holds.nil _⟩

/-- The disk has the buffers that are between `submitted` and `cleared`. -/
theorem bdisk_iff (G : Good s log g) (b : ℕ) :
    s.bdisk b = true ↔ g.phase b = .submitted ∨ g.phase b = .completed := by
  rcases G.inv.idle b with ⟨c, _, st, hv, rfl, x, hx⟩ | ⟨hidle, hb⟩
  · rw [(G.inv.call hv).phase hx]
    cases s.bdisk _ with
    | false => simp
    | true => by_cases hd : x.head ∈ g.fin.drop g.u <;> simp [hd]
  · rw [hidle, hb]
    decide

/-- **`virtio_disk_intr` is done when no request is completed** and not cleared, although it
compares 16-bit counters. -/
theorem used_idx_iff (G : Good s log g) :
    s.disk.used_idx = s.disk.used.idx ↔ ∀ b, g.phase b ≠ .completed := by
  have R := G.inv.rings
  have heq : s.disk.used_idx = s.disk.used.idx ↔ g.u = g.fin.length := by
    rw [R.used_idx, R.usedIdx]
    exact Ring.ofNat_inj₁₆ R.usedRing.le R.usedRing.room (by decide)
  refine ⟨fun h b hb => ?_, fun h => by_contra (fun hne => ?_)⟩
  · rcases G.inv.idle b with ⟨c, _, st, hv, rfl, x, hx⟩ | ⟨hidle, -⟩
    · rw [(G.inv.call hv).phase hx, heq.mp h, drop_length, if_neg not_mem_nil] at hb
      split at hb <;> cases hb
    · rw [hidle] at hb
      cases hb
  · obtain ⟨hlt, -, c, b, x, hv, hx⟩ := G.inv.of_used hne
    exact h b (G.inv.clear hlt hv hx).1

/-- **A round of `virtio_disk_intr`** gives the buffer of a request that is completed back, or
there is none and it ends. -/
theorem intrRound_cases (G : Good s log g) (hl : s.lock = some .intr) :
    ∃ s' evs, s.exec .intrRound = .ok (s', evs) ∧
      ((∃ b, g.phase b = .completed ∧ evs = [.cleared b] ∧ s'.bdisk = update s.bdisk b false ∧
          s'.lock = some .intr) ∨
        (∀ b, g.phase b ≠ .completed) ∧ evs = [] ∧ s'.bdisk = s.bdisk ∧ s'.lock = none) := by
  rw [State.exec, if_pos hl]
  by_cases hidx : s.disk.used_idx = s.disk.used.idx
  · rw [State.intrRound, if_pos hidx]
    exact ⟨_, _, rfl, .inr ⟨G.used_idx_iff.mp hidx, rfl, rfl, rfl⟩⟩
  · obtain ⟨hlt, c, b, x, hv, hx, hrun⟩ := G.intrRound_eq hidx
    exact ⟨_, _, hrun, .inl ⟨b, (G.inv.clear hlt hv hx).1, rfl, rfl, hl⟩⟩

/-- **Every state that is reached is good.** -/
theorem of_runs {blockno : ℕ → ℕ} {y : State × List Event}
    (h : Lts.Runs step (fun _ _ => True) (Virtio.boot blockno, []) y) :
    ∃ g, Good y.1 y.2 g := by
  refine h.invariant (I := fun y => ∃ g, Good y.1 y.2 g) ⟨_, boot blockno⟩ ?_
  rintro ⟨_, _⟩ l z ⟨g, G⟩ - hs
  rcases G.exec l with he | ⟨s', ev, g', he, G'⟩
  · rw [step, he] at hs
    cases hs
  · rw [step, he] at hs
    cases hs
    exact ⟨g', G'⟩

end Good

/-! ## The protocol -/

/-- A call has the descriptors of a chain. -/
def State.Owns (s : State) (c : ℕ) (x : Chain) : Prop :=
  ∃ b st, s.view c = some (b, st) ∧ st.chain = some x

/-- A call has written a request for a buffer. -/
def State.Requests (s : State) (c b : ℕ) (x : Chain) : Prop :=
  ∃ st, s.view c = some (b, st) ∧ st.request = some x

/-- **The disk protocol.** In every state that is reached, a descriptor is free or in the
chain of one call, which has three; `info` knows the buffer of a request; a request is
submitted, completed by the device, cleared by `virtio_disk_intr` and returned in this
order; the disk has the buffers that are submitted or completed; a round of
`virtio_disk_intr` clears the buffer of a request that is completed, and it ends only when
there is none; and no step panics. -/
theorem disk_protocol {blockno : ℕ → ℕ} {s : State} {log : List Event}
    (h : Lts.Runs step (fun _ _ => True) (boot blockno, []) (s, log)) :
    (∀ i < NUM, (s.disk.free i = true ∧ ∀ c x, s.Owns c x → ¬ x.Has i) ∨
      (s.disk.free i = false ∧ ∃! c, ∃ x, s.Owns c x ∧ x.Has i)) ∧
    (∀ c x, s.Owns c x → x.Ok) ∧
    (∀ c b x, s.Requests c b x → (s.disk.info x.head).b = some b) ∧
    (∃ φ, phases log = some φ ∧
      (∀ b, φ b ≠ .idle ↔ ∃ c x, s.Requests c b x) ∧
      (∀ b, s.bdisk b = true ↔ φ b = .submitted ∨ φ b = .completed) ∧
      (s.disk.used_idx = s.disk.used.idx ↔ ∀ b, φ b ≠ .completed) ∧
      (s.lock = some .intr → ∃ s' evs, s.exec .intrRound = .ok (s', evs) ∧
        ((∃ b, φ b = .completed ∧ evs = [.cleared b] ∧ s'.bdisk = update s.bdisk b false ∧
            s'.lock = some .intr) ∨
          (∀ b, φ b ≠ .completed) ∧ evs = [] ∧ s'.bdisk = s.bdisk ∧ s'.lock = none))) ∧
    ∀ l e, s.exec l ≠ .error (.panic e) := by
  obtain ⟨g, G⟩ := Good.of_runs h
  have I := G.inv
  refine ⟨fun i hi => ?_, ?_, ?_,
    ⟨g.phase, G.phases, fun b => ?_, G.bdisk_iff, G.used_idx_iff, G.intrRound_cases⟩, ?_⟩
  · cases hf : s.disk.free i with
    | true =>
      refine .inl ⟨rfl, ?_⟩
      rintro c x ⟨b, st, hv, hx⟩ hi
      have := ((I.call hv).chain hx).2 i hi
      rw [hf] at this
      cases this
    | false =>
      obtain ⟨c, b, st, hv, x, hx, hxi⟩ := I.used i hi hf
      refine .inr ⟨rfl, c, ⟨x, ⟨b, st, hv, hx⟩, hxi⟩, ?_⟩
      rintro c' ⟨x', ⟨b', st', hv', hx'⟩, hxi'⟩
      exact I.disjoint hv' hx' hv hx hxi' hxi
  · rintro c x ⟨b, st, hv, hx⟩
    exact ((I.call hv).chain hx).1
  · rintro c b x ⟨st, hv, hx⟩
    exact ((I.call hv).request hx).info
  · refine ⟨fun hne => ?_, ?_⟩
    · rcases I.idle b with ⟨c, _, st, hv, rfl, x, hx⟩ | ⟨hidle, -⟩
      · exact ⟨c, x, st, hv, hx⟩
      · exact absurd hidle hne
    · rintro ⟨c, x, st, hv, hx⟩
      rw [(I.call hv).phase hx]
      split_ifs <;> decide
  · intro l e he
    rcases G.exec l with hb | ⟨s', ev, g', hok, -⟩
    · rw [he] at hb
      cases hb
    · rw [he] at hok
      cases hok

/-- Two calls. The device has finished the request of the second one only, and the interrupt
has begun: its round clears buffer 7, and buffer 5 stays with the disk. -/
theorem disk_protocol_two_calls : ∃ s s' : State,
    Lts.Runs step (fun _ _ => True) (boot id, []) (s, [.submitted 5, .submitted 7, .completed 7]) ∧
      s.bdisk 7 = true ∧ s.exec .intrRound = .ok (s', [.cleared 7]) ∧ s'.bdisk 7 = false ∧
      s'.bdisk 5 = true := by
  obtain ⟨⟨s, log⟩, h, rfl, hl, h5, h7⟩ : ∃ y ∈ Lts.run step (boot id, [])
      [.start 0 5 false, .start 1 7 true, .run 0, .run 0, .run 0, .run 0, .run 0, .run 1, .run 1,
        .run 1, .run 1, .run 1, .fetch, .fetch, .complete 1, .intr],
      y.2 = [.submitted 5, .submitted 7, .completed 7] ∧ y.1.lock = some .intr ∧
        y.1.bdisk 5 = true ∧ y.1.bdisk 7 = true := by decide +kernel
  have hrun := Lts.runs_of_run h
  obtain ⟨-, -, -, ⟨φ, hφ, -, -, -, hround⟩, -⟩ := disk_protocol hrun
  have hcomp : ∀ b, φ b = .completed ↔ b = 7 := by
    obtain rfl := some.inj (hφ.symm.trans (rfl : phases _ = some (update (update (update
      (fun _ => .idle) 5 .submitted) 7 .submitted) 7 .completed)))
    intro b
    rcases eq_or_ne b 7 with rfl | hne
    · simp
    · simp only [update_of_ne hne, hne, iff_false, update_apply]
      split <;> simp
  obtain ⟨s', evs, hexec, ⟨b, hb, rfl, hbdisk, -⟩ | ⟨hnone, -⟩⟩ := hround hl
  · obtain rfl := (hcomp b).mp hb
    exact ⟨s, s', hrun, h7, hexec, by rw [hbdisk]; rfl, by rw [hbdisk]; exact h5⟩
  · exact absurd ((hcomp 7).mpr rfl) (hnone 7)

end Xv6.Virtio
