import OsProject.Blocks
import OsProject.Ring

/-!
# The disk driver

`virtio_disk.c`: how requests go to the disk and come back. The driver and the device
share three arrays: the descriptors, the ring of requests that are available to the
device, and the ring of requests that the device has used. A request is a chain of
three descriptors, and the first one stands for it in the rings. The counters of the
rings are 16-bit numbers that are never reset.

A call of `virtio_disk_rw` holds `vdisk_lock` except while it sleeps, and so does
`virtio_disk_intr`; what they do with the lock is several steps, since the device does
not know the lock: it looks at the rings at any time, takes what is available, and
finishes what it has taken in any order. The processes that are woken are those that
sleep on the channel, and one may also be woken for another reason.

The caller of `virtio_disk_rw` holds the sleep-lock of the buffer, so a buffer is in one
call at a time. The bytes that are transferred are left out.
-/

namespace Xv6.Virtio

open Function (update)

open Blocks (BSIZE)

/-- Number of descriptors (`virtio.h`). -/
abbrev NUM : ℕ := 8

/-- The descriptor is chained with another one (`virtio.h`). -/
abbrev VRING_DESC_F_NEXT : BitVec 16 := 1

/-- The device writes (`virtio.h`). -/
abbrev VRING_DESC_F_WRITE : BitVec 16 := 2

/-- Read the disk (`virtio.h`). -/
abbrev VIRTIO_BLK_T_IN : ℕ := 0

/-- Write the disk (`virtio.h`). -/
abbrev VIRTIO_BLK_T_OUT : ℕ := 1

/-- The addresses in descriptors: `&disk.ops[i]`, `b->data`, `&disk.info[i].status`. -/
inductive Addr
  | null
  | op (i : ℕ)
  | data (b : ℕ)
  | status (i : ℕ)
  deriving DecidableEq

/-- `struct virtq_desc`. -/
structure Desc where
  addr : Addr
  len : ℕ
  flags : BitVec 16
  next : ℕ

/-- `struct virtq_avail` or `struct virtq_used`. -/
structure Queue where
  idx : UInt16
  ring : ℕ → ℕ

/-- An element of `disk.info`. -/
structure Info where
  b : Option ℕ
  status : UInt8

/-- `struct virtio_blk_req`. -/
structure Op where
  type : ℕ
  reserved : ℕ
  sector : ℕ

/-- `struct disk`, without its lock. -/
structure Disk where
  desc : ℕ → Desc
  avail : Queue
  used : Queue
  free : ℕ → Bool
  used_idx : UInt16
  info : ℕ → Info
  ops : ℕ → Op

/-- The three descriptors of a request, `idx`. -/
structure Chain where
  head : ℕ
  data : ℕ
  status : ℕ

/-- Where a call of `virtio_disk_rw` is. -/
inductive Pc
  /-- About to acquire the lock: at the start, or on the way out of `sleep`. -/
  | acquire (idx : Option Chain)
  /-- At the head of the first loop, with the lock. -/
  | alloc
  /-- With the descriptors allocated. -/
  | format (idx : Chain)
  /-- About to increment `avail->idx`. -/
  | publish (idx : Chain)
  /-- At the head of the second loop, with the lock. -/
  | wait (idx : Chain)
  | asleep (idx : Option Chain)
  | returned

/-- Where a call goes on with the lock. -/
def Pc.resume : Option Chain → Pc
  | none => .alloc
  | some idx => .wait idx

/-- A call, with its arguments. -/
structure Call where
  b : ℕ
  write : Bool
  pc : Pc

/-- What a call sleeps on. -/
inductive Chan
  | free
  | buf (b : ℕ)
  deriving DecidableEq

/-- Who holds `vdisk_lock`. -/
inductive Holder
  | call (c : ℕ)
  | intr
  deriving DecidableEq

/-- The device: how far it has looked in the ring, and the requests it has taken and not
yet finished. -/
structure Device where
  seen : UInt16
  taken : List ℕ

/-- What happens to the request for a buffer. -/
inductive Event
  | submitted (b : ℕ)
  | completed (b : ℕ)
  | cleared (b : ℕ)
  | returned (b : ℕ)
  deriving DecidableEq

/-- The calls of `panic`, and what must not happen either. -/
inductive Panic
  | freeDesc1 | freeDesc2 | status
  /-- `info[id].b` is null. -/
  | nullPointer
  /-- The device is given something that is not a request. -/
  | chain
  /-- More rounds of `free_chain` than there are descriptors. -/
  | rounds
  deriving DecidableEq

/-- Why a step is not made. -/
inductive Stop
  | blocked
  | panic (e : Panic)
  deriving DecidableEq

/-- The driver, the buffers (`b->blockno`, `b->disk`, and which call has the buffer), the
lock, the calls and the device. -/
structure State where
  disk : Disk
  blockno : ℕ → ℕ
  bdisk : ℕ → Bool
  holder : ℕ → Option ℕ
  lock : Option Holder
  call : ℕ → Option Call
  dev : Device

/-- Whether a call sleeps on a channel. -/
def Call.sleepsOn (k : Call) : Chan → Bool
  | .free => match k.pc with
    | .asleep none => true
    | _ => false
  | .buf b => match k.pc with
    | .asleep (some _) => decide (k.b = b)
    | _ => false

/-- A call that has been woken. -/
def Call.woken (k : Call) : Call :=
  match k.pc with
  | .asleep idx => { k with pc := .acquire idx }
  | _ => k

namespace State

/-- A call at another place. -/
def setCall (s : State) (c : ℕ) (k : Call) : State :=
  { s with call := update s.call c (some k) }

/-- `wakeup`. -/
def wakeup (s : State) (chan : Chan) : State :=
  { s with call := fun c => (s.call c).map (fun k => if k.sleepsOn chan then k.woken else k) }

/-! ## Descriptors -/

/-- `alloc_desc`. -/
def allocDesc (s : State) : Option (State × ℕ) :=
  match (List.range NUM).find? s.disk.free with
  | some i => some ({ s with disk := { s.disk with free := update s.disk.free i false } }, i)
  | none => none

/-- `free_desc`. -/
def freeDesc (s : State) (i : ℕ) : Except Panic State :=
  if NUM ≤ i then .error .freeDesc1
  else if s.disk.free i then .error .freeDesc2
  else .ok ({ s with disk := { s.disk with
      desc := update s.disk.desc i { addr := .null, len := 0, flags := 0, next := 0 }
      free := update s.disk.free i true } }.wakeup .free)

/-- `free_chain`. Each round frees another descriptor. -/
def freeChain : ℕ → State → ℕ → Except Panic State
  | 0, _, _ => .error .rounds
  | rounds + 1, s, i => do
    let flag := (s.disk.desc i).flags
    let nxt := (s.disk.desc i).next
    let s ← s.freeDesc i
    if flag &&& VRING_DESC_F_NEXT ≠ 0 then freeChain rounds s nxt else .ok s

/-- `alloc3_desc`, with its three rounds. -/
def alloc3Desc (s : State) : Except Panic (State × Option Chain) :=
  match s.allocDesc with
  | none => .ok (s, none)
  | some (s, i₀) =>
    match s.allocDesc with
    | none => do
      let s ← s.freeDesc i₀
      .ok (s, none)
    | some (s, i₁) =>
      match s.allocDesc with
      | none => do
        let s ← s.freeDesc i₀
        let s ← s.freeDesc i₁
        .ok (s, none)
      | some (s, i₂) => .ok (s, some { head := i₀, data := i₁, status := i₂ })

/-! ## `virtio_disk_rw` -/

/-- The request is written to the descriptors and to the ring, where the device does not
look yet. -/
def format (s : State) (k : Call) (idx : Chain) : State :=
  { s with
    disk := { s.disk with
      ops := update s.disk.ops idx.head
        { type := if k.write then VIRTIO_BLK_T_OUT else VIRTIO_BLK_T_IN
          reserved := 0
          sector := s.blockno k.b * (BSIZE / 512) % 2 ^ 32 }
      desc := update (update (update s.disk.desc
        idx.head
          { addr := .op idx.head, len := 16, flags := VRING_DESC_F_NEXT, next := idx.data })
        idx.data
          { addr := .data k.b
            len := BSIZE
            flags := (if k.write then 0 else VRING_DESC_F_WRITE) ||| VRING_DESC_F_NEXT
            next := idx.status })
        idx.status
          { addr := .status idx.head, len := 1, flags := VRING_DESC_F_WRITE, next := 0 }
      info := update s.disk.info idx.head { b := some k.b, status := 0xff }
      avail := { s.disk.avail with
        ring := update s.disk.avail.ring (s.disk.avail.idx.toNat % NUM) idx.head } }
    bdisk := update s.bdisk k.b true }

/-- The end of the call: the chain is freed. -/
def finish (s : State) (c : ℕ) (k : Call) (idx : Chain) : Except Panic State := do
  let s ← freeChain (NUM + 1) { s with disk := { s.disk with
    info := update s.disk.info idx.head { s.disk.info idx.head with b := none } } } idx.head
  .ok { s.setCall c { k with pc := .returned } with
    lock := none
    holder := update s.holder k.b none }

/-- The next step of a call. -/
def run (s : State) (c : ℕ) (k : Call) : Except Stop (State × List Event) :=
  match k.pc with
  | .acquire idx =>
    if s.lock = none then
      .ok ({ s.setCall c { k with pc := .resume idx } with lock := some (.call c) }, [])
    else .error .blocked
  | .alloc =>
    match s.alloc3Desc with
    | .error e => .error (.panic e)
    | .ok (s, none) => .ok ({ s.setCall c { k with pc := .asleep none } with lock := none }, [])
    | .ok (s, some idx) => .ok (s.setCall c { k with pc := .format idx }, [])
  | .format idx => .ok ((s.format k idx).setCall c { k with pc := .publish idx }, [.submitted k.b])
  | .publish idx =>
    .ok ({ s.setCall c { k with pc := .wait idx } with
      disk := { s.disk with avail := { s.disk.avail with idx := s.disk.avail.idx + 1 } } }, [])
  | .wait idx =>
    if s.bdisk k.b then
      .ok ({ s.setCall c { k with pc := .asleep (some idx) } with lock := none }, [])
    else
      match s.finish c k idx with
      | .error e => .error (.panic e)
      | .ok s => .ok (s, [.returned k.b])
  | .asleep _ | .returned => .error .blocked

/-! ## The device -/

/-- The device takes the next request from the ring. -/
def fetch (s : State) : Except Stop State :=
  if s.dev.seen = s.disk.avail.idx then .error .blocked
  else .ok { s with dev := {
    seen := s.dev.seen + 1
    taken := s.dev.taken ++ [s.disk.avail.ring (s.dev.seen.toNat % NUM)] } }

/-- The device finishes a request: it writes the status and adds an entry to the ring. -/
def complete (s : State) (n : ℕ) : Except Stop (State × List Event) :=
  match s.dev.taken[n]? with
  | none => .error .blocked
  | some id =>
    let d₁ := s.disk.desc (s.disk.desc id).next
    let d₂ := s.disk.desc d₁.next
    match d₁.addr, d₂.addr with
    | .data b, .status i =>
      .ok ({ s with
        disk := { s.disk with
          info := update s.disk.info i { s.disk.info i with status := 0 }
          used :=
            { idx := s.disk.used.idx + 1
              ring := update s.disk.used.ring (s.disk.used.idx.toNat % NUM) id } }
        dev := { s.dev with taken := s.dev.taken.eraseIdx n } }, [.completed b])
    | _, _ => .error (.panic .chain)

/-! ## `virtio_disk_intr` -/

/-- A round of the loop of `virtio_disk_intr`, or its end. -/
def intrRound (s : State) : Except Stop (State × List Event) :=
  if s.disk.used_idx = s.disk.used.idx then .ok ({ s with lock := none }, [])
  else
    let id := s.disk.used.ring (s.disk.used_idx.toNat % NUM)
    if (s.disk.info id).status ≠ 0 then .error (.panic .status)
    else
      match (s.disk.info id).b with
      | none => .error (.panic .nullPointer)
      | some b =>
        .ok ({ s with
          bdisk := update s.bdisk b false
          disk := { s.disk with used_idx := s.disk.used_idx + 1 } }.wakeup (.buf b), [.cleared b])

end State

/-- What can happen: a call starts, makes a step, or is woken for no reason of the
driver's; the device takes or finishes a request; `virtio_disk_intr` starts or makes a
step. -/
inductive Label
  | start (c b : ℕ) (write : Bool)
  | run (c : ℕ)
  | wake (c : ℕ)
  | fetch
  | complete (n : ℕ)
  | intr
  | intrRound

/-- One step. A call starts on a buffer that no other call has. -/
def State.exec (s : State) : Label → Except Stop (State × List Event)
  | .start c b write =>
    if s.call c = none ∧ s.holder b = none then
      .ok ({ s.setCall c { b := b, write := write, pc := .acquire none } with
        holder := update s.holder b (some c) }, [])
    else .error .blocked
  | .run c =>
    match s.call c with
    | none => .error .blocked
    | some k => s.run c k
  | .wake c =>
    match s.call c with
    | none => .error .blocked
    | some k => .ok (s.setCall c k.woken, [])
  | .fetch => do
    let s ← s.fetch
    .ok (s, [])
  | .complete n => s.complete n
  | .intr =>
    if s.lock = none then .ok ({ s with lock := some .intr }, []) else .error .blocked
  | .intrRound => if s.lock = some .intr then s.intrRound else .error .blocked

/-- A step, with the record of what has happened. -/
def step (x : State × List Event) (l : Label) : Option (State × List Event) :=
  (x.1.exec l).toOption.map (fun y => (y.1, x.2 ++ y.2))

/-- After `virtio_disk_init`. -/
def boot (blockno : ℕ → ℕ) : State where
  disk :=
    { desc := fun _ => { addr := .null, len := 0, flags := 0, next := 0 }
      avail := { idx := 0, ring := fun _ => 0 }
      used := { idx := 0, ring := fun _ => 0 }
      free := fun i => decide (i < NUM)
      used_idx := 0
      info := fun _ => { b := none, status := 0 }
      ops := fun _ => { type := 0, reserved := 0, sector := 0 } }
  blockno := blockno
  bdisk := fun _ => false
  holder := fun _ => none
  lock := none
  call := fun _ => none
  dev := { seen := 0, taken := [] }

/-! ## What becomes of a request -/

/-- How far the request for a buffer is. -/
inductive Phase
  | idle | submitted | completed | cleared
  deriving DecidableEq

/-- An event of a request must follow the one before it. -/
def Phase.next (φ : ℕ → Phase) : Event → Option (ℕ → Phase)
  | .submitted b => if φ b = .idle then some (update φ b .submitted) else none
  | .completed b => if φ b = .submitted then some (update φ b .completed) else none
  | .cleared b => if φ b = .completed then some (update φ b .cleared) else none
  | .returned b => if φ b = .cleared then some (update φ b .idle) else none

/-- **The phases after a record**, if each request goes through them in order. -/
def phases (log : List Event) : Option (ℕ → Phase) :=
  log.foldlM Phase.next (fun _ => .idle)

end Xv6.Virtio
