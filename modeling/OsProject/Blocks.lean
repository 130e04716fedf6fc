import OsProject.Inodes
import OsProject.Ownership
import OsProject.Runs

/-!
# The blocks of files

How `fs.c` spreads the contents of inodes over the blocks of the disk. An inode
has the numbers of its first `NDIRECT` blocks and the number of one more block,
the indirect block, which holds the numbers of the others. A bitmap says which
blocks are in use.

A block becomes part of a file in three steps: `balloc` marks it in the bitmap,
`bmap` stores its number in the copy of the inode in memory or in the indirect
block, and `iupdate` writes the copy to disk. The state has all three: the
bitmap, the blocks, the inodes on disk, and the table of inodes in memory with
their copies. Between the steps are early exits, when the disk is full or the
bytes to write cannot be read from user memory, so each function returns what
it has done so far.

The blocks are those that the buffer cache and the log (`log.c`) present: a
write to a buffer is a write to the block. Locks are left out, calls being made
one after the other; where the source says that the caller holds the lock of an
inode, the call is made on an inode that `ilock` has read (`Call.Ready`). A call
of `panic` is an error.
-/

namespace Xv6.Blocks

open Function (update update_self)

/-- Bytes of a block (`fs.h`). -/
abbrev BSIZE : ℕ := 1024

/-- Blocks whose number is in the inode (`fs.h`). -/
abbrev NDIRECT : ℕ := 12

/-- Blocks whose number is in the indirect block (`fs.h`). -/
abbrev NINDIRECT : ℕ := BSIZE / 4

/-- Blocks of a file (`fs.h`). -/
abbrev MAXFILE : ℕ := NDIRECT + NINDIRECT

/-- What the super block says: the number of blocks, which is a `uint`, and of
inodes, and where the data blocks begin, after the boot block, the super block,
the log, the inodes and the bitmap. -/
structure Config where
  size : ℕ
  ninodes : ℕ
  data : ℕ
  data_pos : 0 < data
  size_lt : size < 2 ^ 32

/-- The contents of a block. -/
abbrev Block := ℕ → UInt8

namespace Block

/-- `a[j]`, where `a` is the block as an array of `uint`. -/
def word (B : Block) (j : ℕ) : ℕ :=
  (B (4 * j)).toNat + 2 ^ 8 * (B (4 * j + 1)).toNat + 2 ^ 16 * (B (4 * j + 2)).toNat +
    2 ^ 24 * (B (4 * j + 3)).toNat

/-- `a[j] = v`. -/
def setWord (B : Block) (j v : ℕ) : Block :=
  fun k => if k / 4 = j then UInt8.ofNat (v / 2 ^ (8 * (k % 4))) else B k

/-- The block with the bytes `bs` from offset `o` on. -/
def overwrite (B : Block) (o : ℕ) (bs : List UInt8) : Block :=
  fun k => if o ≤ k ∧ k < o + bs.length then bs.getD (k - o) 0 else B k

/-- A block of zeros. -/
def zero : Block := fun _ => 0

@[simp] theorem word_zero (j : ℕ) : zero.word j = 0 := rfl

theorem word_setWord_self (B : Block) (j : ℕ) {v : ℕ} (hv : v < 2 ^ 32) :
    (B.setWord j v).word j = v := by
  have h0 : (4 * j) / 4 = j := by omega
  have h1 : (4 * j + 1) / 4 = j := by omega
  have h2 : (4 * j + 2) / 4 = j := by omega
  have h3 : (4 * j + 3) / 4 = j := by omega
  have r0 : (4 * j) % 4 = 0 := by omega
  have r1 : (4 * j + 1) % 4 = 1 := by omega
  have r2 : (4 * j + 2) % 4 = 2 := by omega
  have r3 : (4 * j + 3) % 4 = 3 := by omega
  simp only [word, setWord, h0, h1, h2, h3, r0, r1, r2, r3, if_true, UInt8.toNat_ofNat']
  omega

theorem word_setWord_of_ne (B : Block) {i j : ℕ} (v : ℕ) (h : i ≠ j) :
    (B.setWord j v).word i = B.word i := by
  have h0 : (4 * i) / 4 ≠ j := by omega
  have h1 : (4 * i + 1) / 4 ≠ j := by omega
  have h2 : (4 * i + 2) / 4 ≠ j := by omega
  have h3 : (4 * i + 3) / 4 ≠ j := by omega
  simp only [word, setWord, h0, h1, h2, h3, if_false]

end Block

/-- `struct dinode`. Of `addrs` the first `NDIRECT + 1` are used. -/
structure Dinode where
  type : ℕ
  nlink : ℤ
  size : ℕ
  addrs : ℕ → ℕ

/-- An inode that has just been allocated. -/
def Dinode.fresh (type : ℕ) : Dinode where
  type := type
  nlink := 0
  size := 0
  addrs := fun _ => 0

/-- `addrs[k] = addr`. -/
def Dinode.setAddr (d : Dinode) (k addr : ℕ) : Dinode :=
  { d with addrs := update d.addrs k addr }

/-- `struct inode`. -/
structure Inode where
  inum : ℕ
  ref : ℕ
  valid : Bool
  /-- The copy of the inode on disk. -/
  copy : Dinode

/-- The bitmap, the blocks, the inodes on disk, and `itable`. -/
structure State where
  bitmap : ℕ → Bool
  block : ℕ → Block
  dinode : ℕ → Dinode
  inode : Fin NINODE → Inode

namespace State

/-- Write a block. -/
def setBlock (s : State) (b : ℕ) (B : Block) : State :=
  { s with block := update s.block b B }

/-- Write an entry of the inode table. -/
def setInode (s : State) (k : Fin NINODE) (ip : Inode) : State :=
  { s with inode := update s.inode k ip }

@[simp] theorem inode_setInode_self (s : State) (k : Fin NINODE) (ip : Inode) :
    (s.setInode k ip).inode k = ip := update_self ..

/-- Write the copy of an inode. -/
def setCopy (s : State) (k : Fin NINODE) (d : Dinode) : State :=
  s.setInode k { s.inode k with copy := d }

variable (C : Config)

/-! ## Blocks -/

/-- `balloc`: the first block that is not in use, zeroed; 0 if there is none. -/
def balloc (s : State) : State × ℕ :=
  match (List.range C.size).find? (fun b => !s.bitmap b) with
  | some b =>
    ({ s with
        bitmap := update s.bitmap b true
        block := update s.block b .zero }, b)
  | none => (s, 0)

/-- `bfree`. -/
def bfree (s : State) (b : ℕ) : Except Fault State :=
  if s.bitmap b then .ok { s with bitmap := update s.bitmap b false }
  else .error .bfree

/-- The block in `addrs[k]`, allocated if there is none, and 0 if that fails. -/
def slotBlock (s : State) (ip : Dinode) (k : ℕ) : State × Dinode × ℕ :=
  if ip.addrs k = 0 then
    let (s, addr) := s.balloc C
    if addr = 0 then (s, ip, 0)
    else (s, ip.setAddr k addr, addr)
  else (s, ip, ip.addrs k)

/-- `bmap`: block `bn` of an inode, allocated if there is none, and 0 if that
fails. -/
def bmap (s : State) (ip : Dinode) (bn : ℕ) : Except Fault (State × Dinode × ℕ) :=
  if bn < NDIRECT then .ok (s.slotBlock C ip bn)
  else if bn - NDIRECT < NINDIRECT then
    let (s, ip, ind) := s.slotBlock C ip NDIRECT
    if ind = 0 then .ok (s, ip, 0)
    else if (s.block ind).word (bn - NDIRECT) = 0 then
      let (s, addr) := s.balloc C
      if addr = 0 then .ok (s, ip, 0)
      else .ok (s.setBlock ind ((s.block ind).setWord (bn - NDIRECT) addr), ip, addr)
    else .ok (s, ip, (s.block ind).word (bn - NDIRECT))
  else .error .bmap

/-! ## Inodes -/

/-- `iupdate`. -/
def iupdate (s : State) (k : Fin NINODE) : State :=
  { s with dinode := update s.dinode (s.inode k).inum (s.inode k).copy }

/-- `iget`. -/
def iget (s : State) (inum : ℕ) : Except Fault (State × Fin NINODE) :=
  match (List.finRange NINODE).find? (fun k =>
      decide (0 < (s.inode k).ref ∧ (s.inode k).inum = inum)) with
  | some k => .ok (s.setInode k { s.inode k with ref := (s.inode k).ref + 1 }, k)
  | none =>
    match (List.finRange NINODE).find? (fun k => decide ((s.inode k).ref = 0)) with
    | none => .error .iget
    | some k => .ok (s.setInode k { s.inode k with inum := inum, ref := 1, valid := false }, k)

/-- `idup`. -/
def idup (s : State) (k : Fin NINODE) : State :=
  s.setInode k { s.inode k with ref := (s.inode k).ref + 1 }

/-- `ilock`. -/
def ilock (s : State) (k : Fin NINODE) : Except Fault State :=
  let ip := s.inode k
  if ip.ref < 1 then .error .ilock
  else if ip.valid then .ok s
  else if (s.dinode ip.inum).type = 0 then .error .ilockNoType
  else .ok (s.setInode k { ip with valid := true, copy := s.dinode ip.inum })

/-- `ialloc`: the first free inode, or none. -/
def ialloc (s : State) (type : ℕ) : Except Fault (State × Option (Fin NINODE)) :=
  match (List.range C.ninodes).find? (fun i => decide (0 < i ∧ (s.dinode i).type = 0)) with
  | none => .ok (s, none)
  | some i => do
    let (s, k) ← { s with dinode := update s.dinode i (.fresh type) }.iget i
    .ok (s, some k)

/-- `bfree` of those block numbers that are not 0. -/
def bfreeEach (s : State) : List ℕ → Except Fault State
  | [] => .ok s
  | b :: bs => do
    let s ← if b = 0 then .ok s else s.bfree b
    s.bfreeEach bs

/-- `itrunc`. -/
def itrunc (s : State) (k : Fin NINODE) : Except Fault State := do
  let ip := (s.inode k).copy
  let s ← s.bfreeEach ((List.range NDIRECT).map ip.addrs)
  let s ←
    if ip.addrs NDIRECT = 0 then .ok s
    else do
      let s ← s.bfreeEach ((List.range NINDIRECT).map (s.block (ip.addrs NDIRECT)).word)
      s.bfree (ip.addrs NDIRECT)
  .ok ((s.setCopy k { ip with size := 0, addrs := fun _ => 0 }).iupdate k)

/-- `iput`. The last reference to an inode without links frees it. -/
def iput (s : State) (k : Fin NINODE) : Except Fault State := do
  let s ←
    if (s.inode k).ref = 1 ∧ (s.inode k).valid = true ∧ (s.inode k).copy.nlink = 0 then do
      let s ← s.itrunc k
      let s := (s.setCopy k { (s.inode k).copy with type := 0 }).iupdate k
      .ok (s.setInode k { s.inode k with valid := false })
    else .ok s
  .ok (s.setInode k { s.inode k with ref := (s.inode k).ref - 1 })

/-! ## Contents -/

/-- The loop of `readi`, with `tot` of `n` bytes read, the bytes `bs`. A round
reads at least one byte. -/
def readLoop (n : ℕ) :
    ℕ → State → Dinode → ℕ → ℕ → List UInt8 → Except Fault (State × Dinode × List UInt8)
  | 0, s, ip, _, _, bs => .ok (s, ip, bs)
  | rounds + 1, s, ip, off, tot, bs =>
    if tot < n then do
      let (s, ip, addr) ← s.bmap C ip (off / BSIZE)
      if addr = 0 then .ok (s, ip, bs)
      else
        let m := min (n - tot) (BSIZE - off % BSIZE)
        readLoop n rounds s ip (off + m) (tot + m)
          (bs ++ (List.range m).map (fun i => s.block addr (off % BSIZE + i)))
    else .ok (s, ip, bs)

/-- `readi` into kernel memory: the bytes that are read. -/
def readi (s : State) (k : Fin NINODE) (off n : ℕ) : Except Fault (State × List UInt8) :=
  let ip := (s.inode k).copy
  if ip.size < off ∨ (off + n) % 2 ^ 32 < off then .ok (s, [])
  else
    let n := if ip.size < off + n then ip.size - off else n
    do
      let (s, ip, bs) ← readLoop C n n s ip off 0 []
      .ok (s.setCopy k ip, bs)

/-- What `either_copyin` does when it is asked for `m` bytes of the source from
byte `tot` on: the bytes it copies, and whether these are all. -/
abbrev Source := ℕ → ℕ → List UInt8 × Bool

/-- A source in kernel memory. -/
def Source.kernel (bs : List UInt8) : Source := fun tot m => ((bs.drop tot).take m, true)

/-- The loop of `writei`, with `tot` of `n` bytes written. What was copied into
a block before `either_copyin` failed stays there. -/
def writeLoop (src : Source) (n : ℕ) :
    ℕ → State → Dinode → ℕ → ℕ → Except Fault (State × Dinode × ℕ × ℕ)
  | 0, s, ip, off, tot => .ok (s, ip, off, tot)
  | rounds + 1, s, ip, off, tot =>
    if tot < n then do
      let (s, ip, addr) ← s.bmap C ip (off / BSIZE)
      if addr = 0 then .ok (s, ip, off, tot)
      else
        let m := min (n - tot) (BSIZE - off % BSIZE)
        let s := s.setBlock addr ((s.block addr).overwrite (off % BSIZE) ((src tot m).1.take m))
        if (src tot m).2 then writeLoop src n rounds s ip (off + m) (tot + m)
        else .ok (s, ip, off, tot)
    else .ok (s, ip, off, tot)

/-- `writei`. -/
def writei (s : State) (k : Fin NINODE) (src : Source) (off n : ℕ) : Except Fault (State × ℤ) :=
  let ip := (s.inode k).copy
  if ip.size < off ∨ (off + n) % 2 ^ 32 < off then .ok (s, -1)
  else if MAXFILE * BSIZE < off + n then .ok (s, -1)
  else do
    let (s, ip, off, tot) ← writeLoop C src n n s ip off 0
    let ip := if ip.size < off then { ip with size := off } else ip
    .ok ((s.setCopy k ip).iupdate k, tot)

/-! ## Directories -/

/-- The loop of `dirlookup`, with `n` entries left: the inode number of the first
entry in use with this name. -/
def dirScan (k : Fin NINODE) (name : List UInt8) : ℕ → State → ℕ → Except Fault (State × Option ℕ)
  | 0, s, _ => .ok (s, none)
  | n + 1, s, off => do
    let (s, de) ← s.readi C k off 16
    if de.length ≠ 16 then .error .dirlookupRead
    else
      let inum := (de.getD 0 0).toNat + 256 * (de.getD 1 0).toNat
      if inum = 0 then dirScan k name n s (off + 16)
      else if namecmp name (de.drop 2) = 0 then .ok (s, some inum)
      else dirScan k name n s (off + 16)

/-- `dirlookup`. -/
def dirlookup (s : State) (k : Fin NINODE) (name : List UInt8) :
    Except Fault (State × Option (Fin NINODE)) :=
  if (s.inode k).copy.type ≠ T_DIR then .error .dirlookupNotDir
  else do
    let (s, r) ← dirScan C k name (((s.inode k).copy.size + 15) / 16) s 0
    match r with
    | none => .ok (s, none)
    | some inum => do
      let (s, j) ← s.iget inum
      .ok (s, some j)

/-- The loop of `dirlink`, with `n` entries left: the offset of the first entry
that is not in use, or of the end. -/
def emptyScan (k : Fin NINODE) : ℕ → State → ℕ → Except Fault (State × ℕ)
  | 0, s, off => .ok (s, off)
  | n + 1, s, off => do
    let (s, de) ← s.readi C k off 16
    if de.length ≠ 16 then .error .dirlinkRead
    else if (de.getD 0 0).toNat + 256 * (de.getD 1 0).toNat = 0 then .ok (s, off)
    else emptyScan k n s (off + 16)

/-- A `struct dirent`; `strncpy` fills the name with NULs. -/
def dirent (name : List UInt8) (inum : ℕ) : List UInt8 :=
  [UInt8.ofNat inum, UInt8.ofNat (inum / 256)] ++
    (name.take DIRSIZ ++ List.replicate (DIRSIZ - (name.take DIRSIZ).length) 0)

/-- `dirlink`. -/
def dirlink (s : State) (k : Fin NINODE) (name : List UInt8) (inum : ℕ) :
    Except Fault (State × ℤ) := do
  let (s, r) ← s.dirlookup C k name
  match r with
  | some ip => do
    let s ← s.iput ip
    .ok (s, -1)
  | none => do
    let (s, off) ← emptyScan C k (((s.inode k).copy.size + 15) / 16) s 0
    let (s, n) ← s.writei C k (.kernel (dirent name inum)) off 16
    .ok (s, if n ≠ 16 then -1 else 0)

end State

/-! ## Calls -/

/-- The calls that other parts of the kernel make. `setNlink` stands for their
assignments to `ip->nlink`, each followed by `iupdate`. -/
inductive Call where
  | iget (inum : ℕ)
  | idup (k : Fin NINODE)
  | ilock (k : Fin NINODE)
  | iput (k : Fin NINODE)
  | ialloc (type : ℕ)
  | itrunc (k : Fin NINODE)
  | writei (k : Fin NINODE) (src : State.Source) (off n : ℕ)
  | dirlink (k : Fin NINODE) (name : List UInt8) (inum : ℕ)
  | setNlink (k : Fin NINODE) (nlink : ℤ)

namespace Call

/-- What the caller sees to: it has a reference to the inode, holds its lock
where the source asks for that, and gets inode numbers from directories. -/
def Ready (C : Config) (s : State) : Call → Prop
  | .iget _ | .ialloc _ => True
  | .idup k | .iput k => 0 < (s.inode k).ref
  | .ilock k => (s.inode k).inum < C.ninodes
  | .itrunc k | .writei k _ _ _ | .dirlink k _ _ | .setNlink k _ =>
    0 < (s.inode k).ref ∧ (s.inode k).valid = true

instance (C : Config) (s : State) (c : Call) : Decidable (c.Ready C s) := by
  cases c <;> unfold Ready <;> infer_instance

/-- Execute a call. -/
def exec (C : Config) (s : State) : Call → Except Fault State
  | .iget inum => (s.iget inum).map Prod.fst
  | .idup k => .ok (s.idup k)
  | .ilock k => s.ilock k
  | .iput k => s.iput k
  | .ialloc type => (s.ialloc C type).map Prod.fst
  | .itrunc k => s.itrunc k
  | .writei k src off n => (s.writei C k src off n).map Prod.fst
  | .dirlink k name inum => (s.dirlink C k name inum).map Prod.fst
  | .setNlink k nlink => .ok ((s.setCopy k { (s.inode k).copy with nlink := nlink }).iupdate k)

end Call

/-- A call that is made properly and returns. -/
def step (C : Config) (s : State) (c : Call) : Option State :=
  if c.Ready C s then (c.exec C s).toOption else none

end Xv6.Blocks
