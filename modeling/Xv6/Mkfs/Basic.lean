import Xv6.Fs.Dir

/-! `mkfs/mkfs.c`, which writes the first image of the file system: inodes and blocks are handed out in order, files
    are made by appending, and the free map comes last. -/

namespace Xv6.Mkfs
open Lib Fs

def FSSIZE : Nat := 2000
def NINODES : Nat := 200

def nbitmap : Nat := FSSIZE / BPB + 1
def ninodeblocks : Nat := NINODES / IPB + 1
def nlog : Nat := LOGSIZE
def nmeta : Nat := 2 + nlog + ninodeblocks + nbitmap
def nblocks : Nat := FSSIZE - nmeta

def sb : Superblock where
  size := FSSIZE
  nblocks := nblocks
  ninodes := NINODES
  nlog := nlog
  logstart := 2
  inodestart := 2 + nlog
  bmapstart := 2 + nlog + ninodeblocks

def FSMAGIC : Nat := 0x10203040

def sbBlock : Block :=
  [FSMAGIC, sb.size, sb.nblocks, sb.ninodes, sb.nlog, sb.logstart, sb.inodestart, sb.bmapstart].zipIdx.foldl
    (fun b (v, i) => putUint b (4 * i) (UInt32.ofNat v)) Bytes.zero

inductive Stop where
  | assert
  | die
  deriving DecidableEq, Repr

structure Image where
  disk : Disk
  -- how many blocks the file has
  len : Nat
  freeinode : Nat
  -- the first free block that we can allocate
  freeblock : Nat

namespace Image
variable (m : Image)

def wsect (sec : Nat) (buf : Block) : Image :=
  { m with disk := Function.update m.disk sec buf, len := max m.len (sec + 1) }

def rsect (sec : Nat) : Except Stop Block := if sec < m.len then .ok (m.disk sec) else .error .die

def winode (inum : Nat) (ip : Dinode) : Except Stop Image := do
  let buf ← m.rsect (sb.IBLOCK inum)
  .ok (m.wsect (sb.IBLOCK inum) (ip.encode buf (inum % IPB * 64)))

def rinode (inum : Nat) : Except Stop Dinode := do
  let buf ← m.rsect (sb.IBLOCK inum)
  .ok (Dinode.decode buf (inum % IPB * 64))

def bump : Image := { m with freeblock := m.freeblock + 1 }

def newInode (type : Int16) : Dinode := { Dinode.zero with type, nlink := 1 }

def ialloc (type : Int16) : Except Stop (Nat × Image) := do
  let m' ← winode { m with freeinode := m.freeinode + 1 } m.freeinode (newInode type)
  .ok (m.freeinode, m')

/-- The free map: the first `used` blocks have been allocated. -/
def usedMap (used : Nat) : Block := (List.range used).foldl setBit Bytes.zero

def balloc (used : Nat) : Except Stop Image :=
  if used < BPB then .ok (m.wsect sb.bmapstart (usedMap used)) else .error .assert

/-- The pointer to the indirect block of `din`, allocated if there is none. -/
def indirectFor (din : Dinode) : Image × Dinode :=
  if din.addr NDIRECT = 0 then (m.bump, din.setAddr NDIRECT m.freeblock) else (m, din)

/-- The block in entry `i` of the indirect block, allocated if there is none. -/
def entryFor (din : Dinode) (i : Nat) : Except Stop (Nat × Image × Dinode) := do
  let indirect ← m.rsect (din.addr NDIRECT)
  if word indirect i = 0 then
    .ok (m.freeblock, m.bump.wsect (din.addr NDIRECT) (putWord indirect i (UInt32.ofNat m.freeblock)), din)
  else .ok ((word indirect i).toNat, m, din)

/-- The block that holds block `fbn` of the file, allocated if there is none. -/
def blockFor (din : Dinode) (fbn : Nat) : Except Stop (Nat × Image × Dinode) :=
  if fbn < NDIRECT then
    if din.addr fbn = 0 then .ok (m.freeblock, m.bump, din.setAddr fbn m.freeblock) else .ok (din.addr fbn, m, din)
  else entryFor (m.indirectFor din).1 (m.indirectFor din).2 (fbn - NDIRECT)

/-- The loop of `iappend`: the bytes `p` go to offset `off` and on. -/
def iappendLoop : Nat → Image → Dinode → Nat → List UInt8 → Except Stop (Image × Dinode × Nat)
  | 0, m, din, off, _ => .ok (m, din, off)
  | rounds + 1, m, din, off, p =>
    if p.length > 0 then
      if off / BSIZE < MAXFILE then do
        let (x, m, din) ← m.blockFor din (off / BSIZE)
        let n1 := min p.length ((off / BSIZE + 1) * BSIZE - off)
        let buf ← m.rsect x
        iappendLoop rounds (m.wsect x (buf.write (off - off / BSIZE * BSIZE) n1 fun i => p.getD i 0)) din (off + n1)
          (p.drop n1)
      else .error .assert
    else .ok (m, din, off)

def iappend (inum : Nat) (p : List UInt8) : Except Stop Image := do
  let din ← m.rinode inum
  let (m, din, off) ← iappendLoop p.length m din din.size.toNat p
  m.winode inum (din.setSize off)

end Image

/-- A file on the command line, and what successive calls of `read` return. -/
structure Input where
  path : Path
  reads : List (List UInt8)

def userDir : Path := [0x75, 0x73, 0x65, 0x72, slash]
def underscore : UInt8 := 0x5f

def Input.shortname (f : Input) : Path := if userDir.isPrefixOf f.path then f.path.drop 5 else f.path

/-- The name in the file system: one leading `_` is skipped. -/
def Input.name (f : Input) : Path :=
  if f.shortname.head? = some underscore then f.shortname.drop 1 else f.shortname

/-- The image after the blocks have been written as zeroes, and the superblock. -/
def blank : Image := { disk := fun _ => Bytes.zero, len := FSSIZE, freeinode := 1, freeblock := nmeta : Image }.wsect 1 sbBlock

def addEntry (m : Image) (name : Path) (inum : Nat) : Except Stop Image := m.iappend ROOTINO (Dirent.make name inum).bytes

def addReads (inum : Nat) : List (List UInt8) → Image → Except Stop Image
  | [], m => .ok m
  | buf :: rest, m => do
    let m ← m.iappend inum buf
    addReads inum rest m

def addFile (m : Image) (f : Input) : Except Stop Image :=
  if slash ∈ f.shortname ∨ f.name.length > DIRSIZ then .error .assert
  else do
    let (inum, m) ← m.ialloc T_FILE
    let m ← addEntry m f.name inum
    addReads inum f.reads m

def addFiles : List Input → Image → Except Stop Image
  | [], m => .ok m
  | f :: rest, m => do
    let m ← addFile m f
    addFiles rest m

def makeRoot : Except Stop Image := do
  let (rootino, m) ← blank.ialloc T_DIR
  if rootino = ROOTINO then
    let m ← addEntry m [dot] rootino
    addEntry m [dot, dot] rootino
  else .error .assert

def finish (m : Image) : Except Stop Image := do
  let din ← m.rinode ROOTINO
  let m ← m.winode ROOTINO (din.setSize ((din.size.toNat / BSIZE + 1) * BSIZE))
  m.balloc m.freeblock

def main (files : List Input) : Except Stop Image := do
  let m ← makeRoot
  let m ← addFiles files m
  finish m

end Xv6.Mkfs
