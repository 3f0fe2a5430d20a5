import Xv6.Fs.Basic

/-! Inodes of `kernel/fs.c`: the table in memory, the block map, reading and writing. -/

namespace Xv6.Fs
open Lib

section Contents
variable (disk : Disk) (d : Dinode)

def Dinode.addr (i : Nat) : Nat := if h : i < NDIRECT + 1 then (d.addrs ⟨i, h⟩).toNat else 0

def fileBlock (bn : Nat) : Nat :=
  if bn < NDIRECT then d.addr bn
  else if bn - NDIRECT < NINDIRECT ∧ d.addr NDIRECT ≠ 0 then (word (disk (d.addr NDIRECT)) (bn - NDIRECT)).toNat
  else 0

def fileByte (off : Nat) : UInt8 := (disk (fileBlock disk d (off / BSIZE))).get (off % BSIZE)

def direntAt (k : Nat) : Dirent where
  inum := UInt16.ofNat ((fileByte disk d (k * DESIZE)).toNat + 256 * (fileByte disk d (k * DESIZE + 1)).toNat)
  name i := fileByte disk d (k * DESIZE + 2 + i)

def dirents : List Dirent := (List.range (d.size.toNat / DESIZE)).map (direntAt disk d)

end Contents

def Sys.setInode (s : Sys) (e : Fin NINODE) (x : Inode) : Sys := { s with itable := Function.update s.itable e x }

section
variable (s : Sys) (e e' : Fin NINODE) (x : Inode)

@[simp] theorem setInode_self : (s.setInode e x).itable e = x := Function.update_self ..
theorem setInode_itable : (s.setInode e x).itable e' = if e' = e then x else s.itable e' := Function.update_apply ..
@[simp] theorem setInode_disk : (s.setInode e x).disk = s.disk := rfl
@[simp] theorem setInode_lh : (s.setInode e x).lh = s.lh := rfl
@[simp] theorem setInode_ftable : (s.setInode e x).ftable = s.ftable := rfl

end

def onInode (e : Fin NINODE) (f : Inode → Inode) : M Unit := change fun s => s.setInode e (f (s.itable e))

def Inode.setRef (x : Inode) (ref : Int) : Inode := { x with ref }
def Inode.setLocked (x : Inode) (locked : Bool) : Inode := { x with locked }
def Inode.setValid (x : Inode) (valid : Bool) : Inode := { x with valid }
def Inode.setD (x : Inode) (d : Dinode) : Inode := { x with d }

def Dinode.setAddr (d : Dinode) (i addr : Nat) : Dinode :=
  { d with addrs := fun j => if j.val = i then UInt32.ofNat addr else d.addrs j }
def Dinode.setSize (d : Dinode) (size : Nat) : Dinode := { d with size := UInt32.ofNat size }
def Dinode.setNlink (d : Dinode) (nlink : Int16) : Dinode := { d with nlink }
def Dinode.setType (d : Dinode) (type : Int16) : Dinode := { d with type }

def onGhost (f : Sys → Ghost) : M Unit := change fun s => { s with ghost := f s }

def iget (inum : Nat) : M (Fin NINODE) := do
  match ← view fun s => (List.finRange NINODE).find? fun e => 0 < (s.itable e).ref && (s.itable e).inum == inum with
  | some e =>
    onInode e fun x => x.setRef (x.ref + 1)
    pure e
  | none =>
    match ← view fun s => (List.finRange NINODE).find? fun e => (s.itable e).ref == 0 with
    | some e =>
      onInode e fun x => { x with inum, ref := 1, valid := false }
      pure e
    | none => halt (.panic "iget: no inodes")

def idup (e : Fin NINODE) : M Unit := onInode e fun x => x.setRef (x.ref + 1)

section
variable (sb : Superblock)

def iupdate (e : Fin NINODE) : M Unit := do
  let x ← view fun s => s.itable e
  let b ← view fun s => inodeBlock sb s.disk x.inum x.d
  logWrite sb (sb.IBLOCK x.inum) b

def ialloc (type : Int16) : M (Option (Fin NINODE)) := do
  let r ← forUp .stuck 1 (2 ^ 31) 1 sb.ninodes fun inum => do
    let d ← view fun s => dinode sb s.disk inum
    if d.type = 0 then
      let b ← view fun s => inodeBlock sb s.disk inum (Dinode.zero.setType type)
      logWrite sb (sb.IBLOCK inum) b
      onGhost fun s => { s.ghost with born := Function.update s.ghost.born inum (s.ghost.born inum + 1) }
      let e ← iget inum
      pure (some e)
    else pure none
  pure r

def ilock (e : Fin NINODE) : M Unit := do
  let x ← view fun s => s.itable e
  stopIf (x.ref < 1) (.panic "ilock")
  stopIf x.locked .hang
  onInode e (·.setLocked true)
  doIf (x.valid = false) do
    let d ← view fun s => dinode sb s.disk x.inum
    onInode e fun x => (x.setD d).setValid true
    stopIf (d.type = 0) (.panic "ilock: no type")

def iunlock (e : Fin NINODE) : M Unit := do
  let x ← view fun s => s.itable e
  stopIf (x.locked = false ∨ x.ref < 1) (.panic "iunlock")
  onGhost fun s => { s.ghost with clean := s.ghost.clean && (!x.valid || x.d == dinode sb s.disk x.inum) }
  onInode e (·.setLocked false)

def truncDirect (e : Fin NINODE) (i : Nat) : M Unit := do
  let x ← view fun s => s.itable e
  doIf (x.d.addr i ≠ 0) do
    bfree sb (x.d.addr i)
    onInode e fun x => x.setD (x.d.setAddr i 0)

def truncEntry (addr j : Nat) : M Unit := do
  let x ← bread addr
  doIf (word x j ≠ 0) (bfree sb (word x j).toNat)

def itrunc (e : Fin NINODE) : M Unit := do
  loop (truncDirect sb e) NDIRECT
  let x ← view fun s => s.itable e
  let addr := x.d.addr NDIRECT
  doIf (addr ≠ 0) do
    loop (truncEntry sb addr) NINDIRECT
    bfree sb addr
    onInode e fun x => x.setD (x.d.setAddr NDIRECT 0)
  onInode e fun x => x.setD (x.d.setSize 0)
  iupdate sb e

/-- The body of the freeing branch of `iput`, under the sleep-lock. -/
def ifree (e : Fin NINODE) : M Unit := do
  let x ← view fun s => s.itable e
  stopIf x.locked .hang
  onInode e (·.setLocked true)
  onGhost fun s => { s.ghost with
    buried := if x.d.type = T_DIR then dirents s.disk x.d :: s.ghost.buried else s.ghost.buried }
  itrunc sb e
  onInode e fun x => x.setD (x.d.setType 0)
  iupdate sb e
  onInode e fun x => (x.setValid false).setLocked false

def iput (e : Fin NINODE) : M Unit := do
  let x ← view fun s => s.itable e
  doIf (x.ref = 1 ∧ x.valid ∧ x.d.nlink = 0) (ifree sb e)
  onInode e fun x => x.setRef (x.ref - 1)

def iunlockput (e : Fin NINODE) : M Unit := do
  iunlock sb e
  iput sb e

/-- The address at position `i` of `ip->addrs`, allocated if it is 0. Returns 0 if out of disk space. -/
def addrOrAlloc (e : Fin NINODE) (i : Nat) : M Nat := do
  let x ← view fun s => s.itable e
  if x.d.addr i ≠ 0 then pure (x.d.addr i)
  else
    let addr ← balloc sb
    doIf (addr ≠ 0) (onInode e fun x => x.setD (x.d.setAddr i addr))
    pure addr

/-- The disk block address of the `bn`th block in the inode, allocated if there is none. 0 if out of disk space. -/
def bmap (e : Fin NINODE) (bn : Nat) : M Nat := do
  if bn < NDIRECT then addrOrAlloc sb e bn
  else
    let bn := bn - NDIRECT
    if bn < NINDIRECT then
      let addr ← addrOrAlloc sb e NDIRECT
      if addr = 0 then pure 0
      else
        let x ← bread addr
        if word x bn ≠ 0 then pure (word x bn).toNat
        else
          let a ← balloc sb
          doIf (a ≠ 0) do
            let x ← bread addr
            logWrite sb addr (putWord x bn (UInt32.ofNat a))
          pure a
    else halt (.panic "bmap: out of range")

/-- Where the bytes read go: does `either_copyout` of `m` bytes after the first `tot` succeed? -/
abbrev Sink : Type := (tot m : Nat) → Bool

def Sink.kernel : Sink := fun _ _ => true

/-- The bytes to write, and how many of the `m` bytes after the first `tot` `either_copyin` copies before it fails. -/
structure Source where
  byte : Nat → UInt8
  copied : (tot m : Nat) → Nat

def Source.kernel (l : List UInt8) : Source := ⟨fun i => l.getD i 0, fun _ m => m⟩

def Source.drop (src : Source) (i : Nat) : Source := ⟨fun j => src.byte (i + j), fun tot m => src.copied (i + tot) m⟩

/-- The loop of `readi`. It returns the count, or -1, and the bytes read. -/
def readiLoop (e : Fin NINODE) (dst : Sink) (n : Nat) : Nat → Nat → Nat → List UInt8 → M (Int × List UInt8)
  | 0, tot, _, acc => pure (tot, acc)
  | rounds + 1, tot, off, acc =>
    if tot < n then do
      let addr ← bmap sb e (off / BSIZE)
      if addr = 0 then pure ((tot : Int), acc)
      else
        let x ← bread addr
        let m := min (n - tot) (BSIZE - off % BSIZE)
        if dst tot m then
          readiLoop e dst n rounds (tot + m) (off + m) (acc ++ (List.range m).map fun i => x.get (off % BSIZE + i))
        else pure (-1, acc)
    else pure (tot, acc)

/-- Read data from inode. `off` and `n` are of type `uint`. -/
def readi (e : Fin NINODE) (dst : Sink) (off n : Nat) : M (Int × List UInt8) := do
  let x ← view fun s => s.itable e
  let size := x.d.size.toNat
  if off > size ∨ (off + n) % 2 ^ 32 < off then pure (0, [])
  else
    let n := if off + n > size then size - off else n
    readiLoop sb e dst n n 0 off []

/-- The loop of `writei`. It returns the count and the last offset. -/
def writeiLoop (e : Fin NINODE) (src : Source) (n : Nat) : Nat → Nat → Nat → M (Nat × Nat)
  | 0, tot, off => pure (tot, off)
  | rounds + 1, tot, off =>
    if tot < n then do
      let addr ← bmap sb e (off / BSIZE)
      if addr = 0 then pure (tot, off)
      else
        let x ← bread addr
        let m := min (n - tot) (BSIZE - off % BSIZE)
        if m ≤ src.copied tot m then
          logWrite sb addr (x.write (off % BSIZE) m fun i => src.byte (tot + i))
          writeiLoop e src n rounds (tot + m) (off + m)
        else
          -- the buffer has changed and is not logged
          change fun s => s.write addr (x.write (off % BSIZE) (src.copied tot m) fun i => src.byte (tot + i))
          pure (tot, off)
    else pure (tot, off)

/-- Write data to inode. `off` and `n` are of type `uint`. -/
def writei (e : Fin NINODE) (src : Source) (off n : Nat) : M Int := do
  let x ← view fun s => s.itable e
  if off > x.d.size.toNat ∨ (off + n) % 2 ^ 32 < off then pure (-1)
  else if off + n > MAXFILE * BSIZE then pure (-1)
  else
    let (tot, off) ← writeiLoop sb e src n n 0 off
    let x ← view fun s => s.itable e
    doIf (off > x.d.size.toNat) (onInode e fun x => x.setD (x.d.setSize off))
    iupdate sb e
    pure tot

end

end Xv6.Fs
