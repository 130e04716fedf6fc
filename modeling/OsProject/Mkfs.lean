import OsProject.BlockContents
import OsProject.Dirents

/-!
# Making an image

`mkfs.c`, the program that builds the image of the disk from a list of files. The
image is an array of sectors, of which mkfs writes `FSSIZE` first; an inode is 64
bytes of a sector, and a block number a word of four bytes, least significant byte
first, on whatever machine mkfs runs (`xshort`, `xint`).

The kernel reads the same bytes with its own code. What it takes an image for is
`kernelState`: the super block says where the inodes and the bitmap are.

A run of mkfs ends with an image, or with a failed assertion or a call of `die`.
-/

namespace Xv6.Mkfs

open Blocks
open Blocks.State (dirent)

/-- Blocks of the file system (`param.h`). -/
abbrev FSSIZE : ℕ := 2000

/-- Number of inodes (`mkfs.c`). -/
abbrev NINODES : ℕ := 200

/-- Inodes per block (`fs.h`). -/
abbrev IPB : ℕ := BSIZE / 64

/-- Bits per block of the bitmap (`fs.h`). -/
abbrev BPB : ℕ := BSIZE * 8

/-- The magic number of the super block (`fs.h`). -/
abbrev FSMAGIC : ℕ := 0x10203040

abbrev nbitmap : ℕ := FSSIZE / BPB + 1

abbrev ninodeblocks : ℕ := NINODES / IPB + 1

/-- Number of inodes that there is room for in these blocks. -/
abbrev inodeSlots : ℕ := IPB * ninodeblocks

abbrev nlog : ℕ := LOGSIZE

/-- Number of blocks before the data blocks: the boot block, the super block, the
log, the inodes and the bitmap. -/
abbrev nmeta : ℕ := 2 + nlog + ninodeblocks + nbitmap

/-- The words of `struct superblock`: `magic`, `size`, `nblocks`, `ninodes`, `nlog`,
`logstart`, `inodestart`, `bmapstart`. -/
def sb : List ℕ :=
  [FSMAGIC, FSSIZE, FSSIZE - nmeta, NINODES, nlog, 2, 2 + nlog, 2 + nlog + ninodeblocks]

/-- `sb.inodestart`. -/
abbrev inodestart : ℕ := 2 + nlog

/-- `sb.bmapstart`. -/
abbrev bmapstart : ℕ := 2 + nlog + ninodeblocks

/-- Why mkfs stops without an image. -/
inductive Failure
  | assertion
  | die

/-! ## Inodes in a sector -/

/-- The words of `struct dinode`: `type` and `major`, `minor` and `nlink`, `size`,
`addrs`. -/
def dinodeWord (d : Dinode) : ℕ → ℕ
  | 0 => d.type % 2 ^ 16
  | 1 => (d.nlink % 2 ^ 16).toNat * 2 ^ 16
  | 2 => d.size
  | j + 3 => d.addrs j

/-- The sector with inode `k` written. -/
def putDinode (B : Block) (k : ℕ) (d : Dinode) : Block :=
  fun o => if o / 64 = k then UInt8.ofNat (dinodeWord d (o % 64 / 4) / 2 ^ (8 * (o % 4))) else B o

/-- Inode `k` of a sector. -/
def getDinode (B : Block) (k : ℕ) : Dinode where
  type := B.word (16 * k) % 2 ^ 16
  nlink := Int.bmod (B.word (16 * k + 1) / 2 ^ 16) (2 ^ 16)
  size := B.word (16 * k + 2)
  addrs := fun j => if j ≤ NDIRECT then B.word (16 * k + 3 + j) else 0

/-! ## mkfs -/

/-- The image file and the two counters of mkfs. -/
structure Disk where
  img : ℕ → Block
  freeinode : ℕ
  freeblock : ℕ

namespace Disk

/-- `rsect`. The file has `FSSIZE` sectors, as many as are written at the start. -/
def rsect (D : Disk) (sec : ℕ) : Except Failure Block :=
  if sec < FSSIZE then .ok (D.img sec) else .error .die

/-- `wsect`. -/
def wsect (D : Disk) (sec : ℕ) (buf : Block) : Disk :=
  { D with img := Function.update D.img sec buf }

/-- `rinode`. -/
def rinode (D : Disk) (inum : ℕ) : Except Failure Dinode :=
  return getDinode (← D.rsect (inum / IPB + inodestart)) (inum % IPB)

/-- `winode`. -/
def winode (D : Disk) (inum : ℕ) (d : Dinode) : Except Failure Disk := do
  let buf ← D.rsect (inum / IPB + inodestart)
  .ok (D.wsect (inum / IPB + inodestart) (putDinode buf (inum % IPB) d))

/-- `ialloc`. -/
def ialloc (D : Disk) (type : ℕ) : Except Failure (Disk × ℕ) := do
  let inum := D.freeinode
  let D := { D with freeinode := D.freeinode + 1 }
  let D ← D.winode inum { Dinode.fresh type with nlink := 1 }
  .ok (D, inum)

/-- The block for part `fbn` of a file in `iappend`, which is allocated if there is
none. -/
def blockFor (D : Disk) (din : Dinode) (fbn : ℕ) : Except Failure (Disk × Dinode × ℕ) :=
  if fbn < NDIRECT then
    if din.addrs fbn = 0 then
      .ok ({ D with freeblock := D.freeblock + 1 }, din.setAddr fbn D.freeblock, D.freeblock)
    else .ok (D, din, din.addrs fbn)
  else do
    let (D, din) :=
      if din.addrs NDIRECT = 0 then
        ({ D with freeblock := D.freeblock + 1 }, din.setAddr NDIRECT D.freeblock)
      else (D, din)
    let indirect ← D.rsect (din.addrs NDIRECT)
    if indirect.word (fbn - NDIRECT) = 0 then
      .ok ({ D with freeblock := D.freeblock + 1 }.wsect (din.addrs NDIRECT)
        (indirect.setWord (fbn - NDIRECT) D.freeblock), din, D.freeblock)
    else .ok (D, din, indirect.word (fbn - NDIRECT))

/-- The loop of `iappend`, with the bytes `p` left. A round writes at least one. -/
def iappendLoop : ℕ → Disk → Dinode → ℕ → List UInt8 → Except Failure (Disk × Dinode × ℕ)
  | 0, D, din, off, _ => .ok (D, din, off)
  | rounds + 1, D, din, off, p =>
    if p = [] then .ok (D, din, off)
    else
      let fbn := off / BSIZE
      if MAXFILE ≤ fbn then .error .assertion
      else do
        let (D, din, x) ← D.blockFor din fbn
        let n1 := min p.length ((fbn + 1) * BSIZE - off)
        let buf ← D.rsect x
        iappendLoop rounds (D.wsect x (buf.overwrite (off - fbn * BSIZE) (p.take n1))) din
          (off + n1) (p.drop n1)

/-- `iappend`. -/
def iappend (D : Disk) (inum : ℕ) (p : List UInt8) : Except Failure Disk := do
  let din ← D.rinode inum
  let (D, din, off) ← iappendLoop p.length D din din.size p
  D.winode inum { din with size := off }

/-- `iappend` of what each `read` returns, as long as it returns something. -/
def iappendAll (inum : ℕ) : List (List UInt8) → Disk → Except Failure Disk
  | [], D => .ok D
  | p :: ps, D =>
    if p = [] then .ok D
    else do
      let D ← D.iappend inum p
      iappendAll inum ps D

/-- `balloc`: the bitmap with the first `used` bits set. -/
def balloc (D : Disk) (used : ℕ) : Except Failure Disk :=
  if used < BPB then
    .ok (D.wsect bmapstart ((List.range used).foldl (fun buf i =>
      Function.update buf (i / 8) (UInt8.ofNat ((buf (i / 8)).toNat ||| 2 ^ (i % 8)))) Block.zero))
  else .error .assertion

end Disk

/-- An argument of mkfs: a path, and what is read from it, as many bytes at a time as
`read` returns; or nothing if it cannot be opened. -/
structure Input where
  path : List UInt8
  /-- The path is a string of C. -/
  noNul : 0 ∉ path
  chunks : Option (List (List UInt8))

/-- The contents of the file, up to where `read` returns nothing. -/
def Input.contents (f : Input) : List UInt8 :=
  ((f.chunks.getD []).takeWhile (· ≠ [])).flatten

/-- The path without `user/`. -/
def shortname (path : List UInt8) : List UInt8 :=
  if path.take 5 = [117, 115, 101, 114, 47] then path.drop 5 else path

/-- The name under which it is stored: a leading `_` is skipped. -/
def Input.name (f : Input) : List UInt8 :=
  if (shortname f.path).head? = some 95 then (shortname f.path).tail else shortname f.path

/-- The part of `main` for one file. -/
def addFile (D : Disk) (f : Input) : Except Failure Disk :=
  if slash ∈ shortname f.path then .error .assertion
  else
    match f.chunks with
    | none => .error .die
    | some chunks =>
      if DIRSIZ < f.name.length then .error .assertion
      else do
        let (D, inum) ← D.ialloc T_FILE
        let D ← D.iappend ROOTINO (dirent f.name inum)
        Disk.iappendAll inum chunks D

/-- The loop of `main` over the files. -/
def addFiles : List Input → Disk → Except Failure Disk
  | [], D => .ok D
  | f :: fs, D => do
    let D ← addFile D f
    addFiles fs D

/-- The image with zeros and the super block. -/
def blank : Disk where
  img := Function.update (fun _ => Block.zero) 1
    (sb.zipIdx.foldl (fun B x => B.setWord x.2 x.1) Block.zero)
  freeinode := 1
  freeblock := nmeta

/-- The image with an empty root directory. -/
def withRoot : Except Failure Disk := do
  let (D, rootino) ← blank.ialloc T_DIR
  if rootino ≠ ROOTINO then .error .assertion
  else do
    let D ← D.iappend rootino (dirent dot rootino)
    D.iappend rootino (dirent dotdot rootino)

/-- `main`. -/
def mkfs (files : List Input) : Except Failure Disk := do
  let D ← withRoot
  let D ← addFiles files D
  -- fix size of root inode dir
  let din ← D.rinode ROOTINO
  let D ← D.winode ROOTINO { din with size := (din.size / BSIZE + 1) * BSIZE }
  D.balloc D.freeblock

/-! ## The image as the kernel sees it -/

/-- What the kernel takes an image for, with no inode in memory. -/
def kernelState (img : ℕ → Block) : State where
  bitmap := fun b =>
    (img (b / BPB + (img 1).word 7) (b % BPB / 8)).toNat.testBit (b % 8)
  block := img
  dinode := fun i => getDinode (img (i / IPB + (img 1).word 6)) (i % IPB)
  inode := fun _ => { inum := 0, ref := 0, valid := false, copy := .fresh 0 }

end Xv6.Mkfs
