import OsProject.Blocks
import OsProject.ProcTable
import OsProject.Vm

/-!
# File-system calls

The calls of `sysfile.c` that change names – `open`, `mkdir`, `mknod`, `link`,
`unlink`, `chdir` –, those on descriptors – `dup`, `pipe`, `close` –, and `exit`,
which gives up what a process has opened, over the inode layer, the file table
(`file.c`) and pipes (`pipe.c`).

A call runs by itself, from one state of the system to the next. Contents are
given as they are read; that files share no blocks, and that a write stops when
there is no block left, is the subject of the modules on blocks. Here what the
disk has room for is a parameter of the call. Locks are left out, as in the
inode layer, and so is what goes through a pipe. A pipe is a page of memory, and
its fields are words of that page.
-/

namespace Xv6

open Function (update)

open Blocks (BSIZE MAXFILE)
open Blocks.State (dirent)

/-- The type of a file (`stat.h`). -/
abbrev T_FILE : ℕ := 2

/-- The type of a device (`stat.h`). -/
abbrev T_DEVICE : ℕ := 3

/-- Maximum major device number (`param.h`). -/
abbrev NDEV : ℤ := 10

/-- Maximum length of a path (`param.h`). -/
abbrev MAXPATH : ℕ := 128

/-- The name of a directory in itself. -/
abbrev dot : List UInt8 := [46]

/-- The name of its parent. -/
abbrev dotdot : List UInt8 := [46, 46]

/-- A value in a `short`. -/
def toShort (n : ℤ) : ℤ := n.bmod (2 ^ 16)

/-- The inode number of a `struct dirent`. -/
def direntInum (de : List UInt8) : ℕ := (de.getD 0 0).toNat + 256 * (de.getD 1 0).toNat

/-- What `dirlookup` stores in `*poff`: the offset of the entry that `dirScan`
finds. -/
def dirOffset (data name : List UInt8) : ℕ → ℕ → ℕ
  | off, 0 => off
  | off, n + 1 =>
    let de := readi data off 16
    if direntInum de ≠ 0 ∧ namecmp name (de.drop 2) = 0 then off
    else dirOffset data name (off + 16) n

/-- The loop of `dirlink`, with `n` entries left: the offset of the first entry
that is not in use, or of the end. -/
def emptyScan (data : List UInt8) : ℕ → ℕ → Except Fault ℕ
  | off, 0 => .ok off
  | off, n + 1 =>
    let de := readi data off 16
    if de.length ≠ 16 then .error .dirlinkRead
    else if direntInum de = 0 then .ok off
    else emptyScan data (off + 16) n

/-- The loop of `isdirempty`, with `n` entries left. -/
def emptyFrom (data : List UInt8) : ℕ → ℕ → Except Fault Bool
  | _, 0 => .ok true
  | off, n + 1 =>
    let de := readi data off 16
    if de.length ≠ 16 then .error .isdirempty
    else if direntInum de ≠ 0 then .ok false
    else emptyFrom data (off + 16) n

/-- `isdirempty`. -/
def isdirempty (data : List UInt8) : Except Fault Bool :=
  emptyFrom data (2 * 16) ((data.length + 15) / 16 - 2)

/-- The contents with other bytes from an offset on. -/
def overwrite (data : List UInt8) (off : ℕ) (bytes : List UInt8) : List UInt8 :=
  data.take off ++ bytes ++ data.drop (off + bytes.length)

/-- Which blocks of which files the disk has room for during a call: whether
`bmap` allocates block `bn` of inode `inum` when the file does not have it. -/
abbrev Room := ℕ → ℕ → Bool

/-- The loop of `writei` from kernel memory, with `tot` of `n` bytes written. A
file has the blocks that its size covers. -/
def writeLoop (room : ℕ → Bool) (src : List UInt8) (n : ℕ) :
    ℕ → List UInt8 → ℕ → ℕ → List UInt8 × ℕ
  | 0, data, _, tot => (data, tot)
  | rounds + 1, data, off, tot =>
    if tot < n then
      if data.length ≤ off / BSIZE * BSIZE ∧ room (off / BSIZE) = false then (data, tot)
      else
        let m := min (n - tot) (BSIZE - off % BSIZE)
        writeLoop room src n rounds (overwrite data off ((src.drop tot).take m)) (off + m) (tot + m)
    else (data, tot)

namespace Page

/-- `nread` and `nwrite` of `struct pipe`, at offset 536: after the lock and
`PIPESIZE` bytes. -/
abbrev pipeCounts : Fin 512 := ⟨67, by decide⟩

/-- `readopen` and `writeopen` of `struct pipe`. -/
abbrev pipeEnds : Fin 512 := ⟨68, by decide⟩

/-- `pi->readopen`. -/
def readopen (P : Page) : ℕ := P.word pipeEnds % 2 ^ 32

/-- `pi->writeopen`. -/
def writeopen (P : Page) : ℕ := P.word pipeEnds / 2 ^ 32

/-- Write `pi->readopen` and `pi->writeopen`. -/
def setEnds (P : Page) (readopen writeopen : ℕ) : Page :=
  P.setWord pipeEnds (readopen + writeopen * 2 ^ 32)

end Page

/-- A new inode on disk. -/
def DInode.fresh (type : ℕ) : DInode where
  type := type
  major := 0
  minor := 0
  nlink := 0
  data := []

namespace Fs

/-- A change of the fields of an inode, followed by `iupdate`. -/
def modify (fs : Fs) (i : Fin NINODE) (f : DInode → DInode) : Fs :=
  let ip := fs.inode i
  { fs with
    inode := update fs.inode i { ip with copy := f ip.copy }
    disk := update fs.disk ip.dev (update (fs.disk ip.dev) ip.inum (f ip.copy)) }

/-- `writei` from kernel memory. -/
def writei (fs : Fs) (room : Room) (i : Fin NINODE) (src : List UInt8) (off n : ℕ) : Fs × ℤ :=
  let ip := fs.inode i
  if ip.copy.data.length < off ∨ (off + n) % 2 ^ 32 < off then (fs, -1)
  else if MAXFILE * BSIZE < off + n then (fs, -1)
  else
    let (data, tot) := writeLoop (room ip.inum) src n n ip.copy.data off 0
    (fs.modify i (fun d => { d with data := data }), tot)

/-- `dirlink`. -/
def dirlink (fs : Fs) (room : Room) (i : Fin NINODE) (name : List UInt8) (inum : ℕ) :
    Except Fault (Fs × ℤ) := do
  let (fs, r) ← fs.dirlookup i name
  match r with
  | some ip => .ok (fs.iput ip, -1)
  | none => do
    let data := (fs.inode i).copy.data
    let off ← emptyScan data 0 ((data.length + 15) / 16)
    let (fs, n) := fs.writei room i (dirent name inum) off 16
    .ok (fs, if n ≠ 16 then -1 else 0)

/-- `ialloc`, on a disk with this number of inodes. -/
def ialloc (fs : Fs) (ninodes dev type : ℕ) : Except Fault (Fs × Option (Fin NINODE)) :=
  match (List.range ninodes).find? (fun n => decide (0 < n ∧ (fs.disk dev n).type = 0)) with
  | none => .ok (fs, none)
  | some n => do
    let disk := update fs.disk dev (update (fs.disk dev) n (.fresh type))
    let (fs, i) ← { fs with disk := disk }.iget dev n
    .ok (fs, some i)

/-- The entries of a new directory in `create`. -/
def linkDots (fs : Fs) (room : Room) (ip dp : Fin NINODE) : Except Fault (Fs × Bool) := do
  let (fs, r) ← fs.dirlink room ip dot (fs.inode ip).inum
  if r < 0 then .ok (fs, false)
  else do
    let (fs, r) ← fs.dirlink room ip dotdot (fs.inode dp).inum
    .ok (fs, decide (0 ≤ r))

/-- The end of `create` after something went wrong. -/
def createFail (fs : Fs) (ip dp : Fin NINODE) : Fs :=
  ((fs.modify ip (fun d => { d with nlink := 0 })).iput ip).iput dp

/-- The end of `create` once the entries of a new directory are in place. -/
def createLink (fs : Fs) (room : Room) (ip dp : Fin NINODE) (name : List UInt8) (type : ℕ) :
    Except Fault (Fs × Option (Fin NINODE)) := do
  let (fs, r) ← fs.dirlink room dp name (fs.inode ip).inum
  if r < 0 then .ok (fs.createFail ip dp, none)
  else
    let fs :=
      if type = T_DIR then fs.modify dp (fun d => { d with nlink := toShort (d.nlink + 1) })
      else fs
    .ok (fs.iput dp, some ip)

/-- `create`, when there is no such name in the directory. -/
def createNew (fs : Fs) (ninodes : ℕ) (room : Room) (dp : Fin NINODE) (name : List UInt8)
    (type : ℕ) (major minor : ℤ) : Except Fault (Fs × Option (Fin NINODE)) := do
  let (fs, r) ← fs.ialloc ninodes (fs.inode dp).dev type
  match r with
  | none => .ok (fs.iput dp, none)
  | some ip => do
    let fs ← fs.ilock ip
    let fs := fs.modify ip (fun d => { d with major := major, minor := minor, nlink := 1 })
    let (fs, dots) ← if type = T_DIR then fs.linkDots room ip dp else .ok (fs, true)
    if dots then fs.createLink room ip dp name type
    else .ok (fs.createFail ip dp, none)

/-- `create`. -/
def create (fs : Fs) (ninodes : ℕ) (room : Room) (cwd : Option (Fin NINODE)) (path : List UInt8)
    (type : ℕ) (major minor : ℤ) : Except Fault (Fs × Option (Fin NINODE)) := do
  let (fs, r) ← fs.namex cwd path true
  match r with
  | none => .ok (fs, none)
  | some (dp, name) => do
    let fs ← fs.ilock dp
    let (fs, r) ← fs.dirlookup dp name
    match r with
    | some ip => do
      let fs ← (fs.iput dp).ilock ip
      if type = T_FILE ∧ ((fs.inode ip).copy.type = T_FILE ∨ (fs.inode ip).copy.type = T_DEVICE)
      then .ok (fs, some ip)
      else .ok (fs.iput ip, none)
    | none => fs.createNew ninodes room dp name type major minor

end Fs

/-! ## The file table and the calls -/

namespace Sysfile

/-- The type of a `struct file`. -/
inductive FdType
  | none | pipe | inode | device
  deriving DecidableEq

/-- `struct file`. -/
structure File where
  type : FdType
  ref : ℕ
  readable : Bool
  writable : Bool
  pipe : Option ℕ
  ip : Option (Fin NINODE)
  off : ℕ
  major : ℤ

/-- What the calls use of `struct proc`. -/
structure Proc where
  ofile : Fin NOFILE → Option (Fin NFILE)
  cwd : Option (Fin NINODE)
  pagetable : Option ℕ

/-- Memory, the inode layer, the file table and the processes. -/
structure State where
  mem : Phys
  fs : Fs
  file : Fin NFILE → File
  proc : Slot → Proc

/-- Access modes of `open` (`fcntl.h`). -/
abbrev O_RDONLY : BitVec 32 := 0x000

abbrev O_WRONLY : BitVec 32 := 0x001

abbrev O_RDWR : BitVec 32 := 0x002

abbrev O_CREATE : BitVec 32 := 0x200

abbrev O_TRUNC : BitVec 32 := 0x400

/-- `argstr` with a buffer of `MAXPATH` bytes: the string in user memory, whose
bytes from the address on are `mem` as far as it is mapped. -/
def argstr (mem : List UInt8) : Option (List UInt8) :=
  let s := (mem.take MAXPATH).takeWhile (· ≠ 0)
  if s.length < (mem.take MAXPATH).length then some s else none

namespace State

/-- Write memory. -/
def setMem (s : State) (m : Phys) : State := { s with mem := m }

/-- Write the inode layer. -/
def setFs (s : State) (fs : Fs) : State := { s with fs := fs }

/-- Write an entry of the file table. -/
def setFile (s : State) (f : Fin NFILE) (ff : File) : State :=
  { s with file := update s.file f ff }

/-- Write a process. -/
def setProc (s : State) (p : Slot) (P : Proc) : State :=
  { s with proc := update s.proc p P }

/-- What is done between `begin_op` and `end_op`. -/
def inOp {α : Type} (s : State) (f : State → Except Fault (State × α)) :
    Except Fault (State × α) := do
  let fs ← s.fs.beginOp
  let (s, r) ← f (s.setFs fs)
  let fs ← s.fs.endOp
  .ok (s.setFs fs, r)

/-- `iput` of a pointer. -/
def iput (s : State) : Option (Fin NINODE) → Except Fault State
  | none => .error .nullPointer
  | some ip => .ok (s.setFs (s.fs.iput ip))

/-- `filealloc`. -/
def filealloc (s : State) : Option (State × Fin NFILE) :=
  ((List.finRange NFILE).find? (fun f => decide ((s.file f).ref = 0))).map
    (fun f => (s.setFile f { s.file f with ref := 1 }, f))

/-- `filedup`. -/
def filedup (s : State) (f : Fin NFILE) : Except Fault State :=
  if (s.file f).ref < 1 then .error .filedup
  else .ok (s.setFile f { s.file f with ref := (s.file f).ref + 1 })

/-- `pipeclose`. -/
def pipeclose (s : State) (pi : ℕ) (writable : Bool) : Except Fault State :=
  let P := s.mem.page pi
  let P := if writable then P.setEnds P.readopen 0 else P.setEnds 0 P.writeopen
  let m := s.mem.setPage pi P
  if P.readopen = 0 ∧ P.writeopen = 0 then do
    let m ← m.kfree pi
    .ok (s.setMem m)
  else .ok (s.setMem m)

/-- `fileclose`. -/
def fileclose (s : State) (f : Fin NFILE) : Except Fault State :=
  let ff := s.file f
  if ff.ref < 1 then .error .fileclose
  else if 0 < ff.ref - 1 then .ok (s.setFile f { ff with ref := ff.ref - 1 })
  else
    let s := s.setFile f { ff with ref := 0, type := .none }
    if ff.type = .pipe then
      match ff.pipe with
      | none => .error .nullPointer
      | some pi => s.pipeclose pi ff.writable
    else if ff.type = .inode ∨ ff.type = .device then do
      let (s, _) ← s.inOp (fun s => do
        let s ← s.iput ff.ip
        .ok (s, ()))
      .ok s
    else .ok s

/-- The new page of a pipe. -/
def pipePage (P : Page) : Page := (P.setEnds 1 1).setWord Page.pipeCounts 0

/-- `pipealloc`: the files of the two ends. -/
def pipealloc (s : State) : Except Fault (State × Option (Fin NFILE × Fin NFILE)) :=
  match s.filealloc with
  | none => .ok (s, none)
  | some (s, f0) =>
    match s.filealloc with
    | none => do
      let s ← s.fileclose f0
      .ok (s, none)
    | some (s, f1) =>
      match s.mem.kalloc with
      | (m, none) => do
        let s ← (s.setMem m).fileclose f0
        let s ← s.fileclose f1
        .ok (s, none)
      | (m, some pi) =>
        let s := s.setMem (m.setPage pi (pipePage (m.page pi)))
        let s := s.setFile f0
          { s.file f0 with type := .pipe, readable := true, writable := false, pipe := some pi }
        let s := s.setFile f1
          { s.file f1 with type := .pipe, readable := false, writable := true, pipe := some pi }
        .ok (s, some (f0, f1))

/-- Write an entry of the descriptor table of a process. -/
def setOfile (s : State) (p : Slot) (fd : Fin NOFILE) (o : Option (Fin NFILE)) : State :=
  s.setProc p { s.proc p with ofile := update (s.proc p).ofile fd o }

/-- `fdalloc`. -/
def fdalloc (s : State) (p : Slot) (f : Fin NFILE) : Option (State × Fin NOFILE) :=
  ((List.finRange NOFILE).find? (fun fd => ((s.proc p).ofile fd).isNone)).map (fun fd =>
    (s.setOfile p fd (some f), fd))

/-- `argfd`: the descriptor and its file. -/
def argfd (s : State) (p : Slot) (fd : ℤ) : Option (Fin NOFILE × Fin NFILE) :=
  if h : 0 ≤ fd ∧ fd < NOFILE then
    let i : Fin NOFILE := ⟨fd.toNat, by omega⟩
    ((s.proc p).ofile i).map (fun f => (i, f))
  else none

/-- `sys_dup`. -/
def sysDup (s : State) (p : Slot) (fd : ℤ) : Except Fault (State × ℤ) :=
  match s.argfd p fd with
  | none => .ok (s, -1)
  | some (_, f) =>
    match s.fdalloc p f with
    | none => .ok (s, -1)
    | some (s, fd) => do
      let s ← s.filedup f
      .ok (s, fd)

/-- The end of `sys_pipe` after something went wrong. -/
def pipeFail (s : State) (rf wf : Fin NFILE) : Except Fault (State × ℤ) := do
  let s ← s.fileclose rf
  let s ← s.fileclose wf
  .ok (s, -1)

/-- `sys_pipe`. -/
def sysPipe (s : State) (p : Slot) (fdarray : ℕ) : Except Fault (State × ℤ) := do
  let (s, r) ← s.pipealloc
  match r with
  | none => .ok (s, -1)
  | some (rf, wf) =>
    match s.fdalloc p rf with
    | none => s.pipeFail rf wf
    | some (s, fd0) =>
      match s.fdalloc p wf with
      | none => (s.setOfile p fd0 none).pipeFail rf wf
      | some (s, fd1) =>
        match (s.proc p).pagetable with
        | none => .error .nullPointer
        | some pagetable => do
          let (m, ok) ← s.mem.copyout pagetable fdarray (intBytes fd0)
          let (m, ok) ←
            if ok then m.copyout pagetable ((fdarray + 4) % 2 ^ 64) (intBytes fd1)
            else .ok (m, false)
          let s := s.setMem m
          if ok then .ok (s, 0)
          else ((s.setOfile p fd0 none).setOfile p fd1 none).pipeFail rf wf

/-- `sys_link`, from `bad` on. -/
def linkBad (s : State) (ip : Fin NINODE) : Except Fault (State × ℤ) := do
  let fs ← s.fs.ilock ip
  let fs := fs.modify ip (fun d => { d with nlink := toShort (d.nlink - 1) })
  .ok (s.setFs (fs.iput ip), -1)

/-- `sys_link`. -/
def sysLink (s : State) (room : Room) (p : Slot) (old new : List UInt8) :
    Except Fault (State × ℤ) :=
  match argstr old, argstr new with
  | some old, some new => s.inOp (fun s => do
    let (fs, r) ← s.fs.namei (s.proc p).cwd old
    match r with
    | none => .ok (s.setFs fs, -1)
    | some ip => do
      let fs ← fs.ilock ip
      if (fs.inode ip).copy.type = T_DIR then .ok (s.setFs (fs.iput ip), -1)
      else do
        let fs := fs.modify ip (fun d => { d with nlink := toShort (d.nlink + 1) })
        let (fs, r) ← fs.namex (s.proc p).cwd new true
        match r with
        | none => (s.setFs fs).linkBad ip
        | some (dp, name) => do
          let fs ← fs.ilock dp
          if (fs.inode dp).dev ≠ (fs.inode ip).dev then (s.setFs (fs.iput dp)).linkBad ip
          else do
            let (fs, r) ← fs.dirlink room dp name (fs.inode ip).inum
            if r < 0 then (s.setFs (fs.iput dp)).linkBad ip
            else .ok (s.setFs ((fs.iput dp).iput ip), 0))
  | _, _ => .ok (s, -1)

/-- `sys_unlink`, once the entry at `off` in `dp` is known to be for `ip`. -/
def unlinkEntry (fs : Fs) (room : Room) (dp ip : Fin NINODE) (off : ℕ) :
    Except Fault (Fs × ℤ) := do
  let fs ← fs.ilock ip
  if (fs.inode ip).copy.nlink < 1 then .error .unlinkNlink
  else do
    let busy ←
      if (fs.inode ip).copy.type = T_DIR then do
        let e ← isdirempty (fs.inode ip).copy.data
        .ok (!e)
      else .ok false
    if busy then .ok ((fs.iput ip).iput dp, -1)
    else
      let (fs, n) := fs.writei room dp (List.replicate 16 0) off 16
      if n ≠ 16 then .error .unlinkWritei
      else
        let fs :=
          if (fs.inode ip).copy.type = T_DIR then
            fs.modify dp (fun d => { d with nlink := toShort (d.nlink - 1) })
          else fs
        let fs := (fs.iput dp).modify ip (fun d => { d with nlink := toShort (d.nlink - 1) })
        .ok (fs.iput ip, 0)

/-- `sys_unlink`. -/
def sysUnlink (s : State) (room : Room) (p : Slot) (path : List UInt8) :
    Except Fault (State × ℤ) :=
  match argstr path with
  | none => .ok (s, -1)
  | some path => s.inOp (fun s => do
    let (fs, r) ← s.fs.namex (s.proc p).cwd path true
    match r with
    | none => .ok (s.setFs fs, -1)
    | some (dp, name) => do
      let fs ← fs.ilock dp
      if namecmp name dot = 0 ∨ namecmp name dotdot = 0 then .ok (s.setFs (fs.iput dp), -1)
      else do
        let data := (fs.inode dp).copy.data
        let (fs, r) ← fs.dirlookup dp name
        match r with
        | none => .ok (s.setFs (fs.iput dp), -1)
        | some ip => do
          let off := dirOffset data name 0 ((data.length + 15) / 16)
          let (fs, r) ← unlinkEntry fs room dp ip off
          .ok (s.setFs fs, r))

/-- `sys_open`, once the inode is found or created. -/
def openInode (s : State) (p : Slot) (ip : Fin NINODE) (omode : BitVec 32) :
    Except Fault (State × ℤ) :=
  let d := (s.fs.inode ip).copy
  if d.type = T_DEVICE ∧ (d.major < 0 ∨ NDEV ≤ d.major) then
    .ok (s.setFs (s.fs.iput ip), -1)
  else
    match s.filealloc with
    | none => .ok (s.setFs (s.fs.iput ip), -1)
    | some (s, f) =>
      match s.fdalloc p f with
      | none => do
        let s ← s.fileclose f
        .ok (s.setFs (s.fs.iput ip), -1)
      | some (s, fd) =>
        let ff := s.file f
        let ff :=
          if d.type = T_DEVICE then { ff with type := .device, major := d.major }
          else { ff with type := .inode, off := 0 }
        let s := s.setFile f
          { ff with
            ip := some ip
            readable := decide (omode &&& O_WRONLY = 0)
            writable := decide (omode &&& O_WRONLY ≠ 0 ∨ omode &&& O_RDWR ≠ 0) }
        let fs :=
          if omode &&& O_TRUNC ≠ 0 ∧ d.type = T_FILE then
            s.fs.modify ip (fun d => { d with data := [] })
          else s.fs
        .ok (s.setFs fs, fd)

/-- The lookup of `sys_open` without `O_CREATE`. -/
def openNamei (fs : Fs) (cwd : Option (Fin NINODE)) (path : List UInt8) (omode : BitVec 32) :
    Except Fault (Fs × Option (Fin NINODE)) := do
  let (fs, r) ← fs.namei cwd path
  match r with
  | none => .ok (fs, none)
  | some ip => do
    let fs ← fs.ilock ip
    if (fs.inode ip).copy.type = T_DIR ∧ omode ≠ O_RDONLY then .ok (fs.iput ip, none)
    else .ok (fs, some ip)

/-- `sys_open`. -/
def sysOpen (s : State) (ninodes : ℕ) (room : Room) (p : Slot) (path : List UInt8)
    (omode : BitVec 32) : Except Fault (State × ℤ) :=
  match argstr path with
  | none => .ok (s, -1)
  | some path => s.inOp (fun s => do
    let (fs, r) ←
      if omode &&& O_CREATE ≠ 0 then s.fs.create ninodes room (s.proc p).cwd path T_FILE 0 0
      else openNamei s.fs (s.proc p).cwd path omode
    match r with
    | none => .ok (s.setFs fs, -1)
    | some ip => (s.setFs fs).openInode p ip omode)

/-- `sys_mkdir` and `sys_mknod` after their arguments: a new inode that is not
kept open. -/
def createPut (s : State) (ninodes : ℕ) (room : Room) (p : Slot) (path : List UInt8) (type : ℕ)
    (major minor : ℤ) : Except Fault (State × ℤ) :=
  s.inOp (fun s =>
    match argstr path with
    | none => .ok (s, -1)
    | some path => do
      let (fs, r) ← s.fs.create ninodes room (s.proc p).cwd path type major minor
      match r with
      | none => .ok (s.setFs fs, -1)
      | some ip => .ok (s.setFs (fs.iput ip), 0))

/-- `sys_mkdir`. -/
def sysMkdir (s : State) (ninodes : ℕ) (room : Room) (p : Slot) (path : List UInt8) :
    Except Fault (State × ℤ) :=
  s.createPut ninodes room p path T_DIR 0 0

/-- `sys_mknod`. The device numbers become `short` when they are passed on. -/
def sysMknod (s : State) (ninodes : ℕ) (room : Room) (p : Slot) (path : List UInt8)
    (major minor : ℤ) : Except Fault (State × ℤ) :=
  s.createPut ninodes room p path T_DEVICE (toShort major) (toShort minor)

/-- `sys_chdir`. -/
def sysChdir (s : State) (p : Slot) (path : List UInt8) : Except Fault (State × ℤ) :=
  s.inOp (fun s =>
    match argstr path with
    | none => .ok (s, -1)
    | some path => do
      let (fs, r) ← s.fs.namei (s.proc p).cwd path
      match r with
      | none => .ok (s.setFs fs, -1)
      | some ip => do
        let fs ← fs.ilock ip
        if (fs.inode ip).copy.type ≠ T_DIR then .ok (s.setFs (fs.iput ip), -1)
        else do
          let s ← (s.setFs fs).iput (s.proc p).cwd
          .ok (s.setProc p { s.proc p with cwd := some ip }, 0))

/-- `sys_close`. -/
def sysClose (s : State) (p : Slot) (fd : ℤ) : Except Fault (State × ℤ) :=
  match s.argfd p fd with
  | none => .ok (s, -1)
  | some (fd, f) => do
    let s ← (s.setOfile p fd none).fileclose f
    .ok (s, 0)

/-- The loop of `exit` over the open files, with these descriptors left. -/
def closeAll (p : Slot) : List (Fin NOFILE) → State → Except Fault State
  | [], s => .ok s
  | fd :: fds, s =>
    match (s.proc p).ofile fd with
    | none => closeAll p fds s
    | some f => do
      let s ← s.fileclose f
      closeAll p fds (s.setOfile p fd none)

/-- `exit`, as far as files are concerned. -/
def exit (s : State) (p : Slot) : Except Fault (State × ℤ) := do
  let s ← closeAll p (List.finRange NOFILE) s
  let (s, _) ← s.inOp (fun s => do
    let s ← s.iput (s.proc p).cwd
    .ok (s, ()))
  .ok (s.setProc p { s.proc p with cwd := none }, 0)

end State

/-- The system calls. Strings are given by the user memory they are in. -/
inductive Call
  | sysOpen (path : List UInt8) (omode : BitVec 32)
  | sysMkdir (path : List UInt8)
  | sysMknod (path : List UInt8) (major minor : ℤ)
  | sysLink (old new : List UInt8)
  | sysUnlink (path : List UInt8)
  | sysChdir (path : List UInt8)
  | sysDup (fd : ℤ)
  | sysPipe (fdarray : ℕ)
  | sysClose (fd : ℤ)
  | exit

/-- `exit`, the call that does not return. -/
def Call.isExit : Call → Bool
  | .exit => true
  | _ => false

/-- A system call by process `p`, and what it returns. -/
def Call.exec (ninodes : ℕ) (room : Room) (s : State) (p : Slot) :
    Call → Except Fault (State × ℤ)
  | .sysOpen path omode => s.sysOpen ninodes room p path omode
  | .sysMkdir path => s.sysMkdir ninodes room p path
  | .sysMknod path major minor => s.sysMknod ninodes room p path major minor
  | .sysLink old new => s.sysLink room p old new
  | .sysUnlink path => s.sysUnlink room p path
  | .sysChdir path => s.sysChdir p path
  | .sysDup fd => s.sysDup p fd
  | .sysPipe fdarray => s.sysPipe p fdarray
  | .sysClose fd => s.sysClose p fd
  | .exit => s.exit p

end Sysfile

end Xv6
