import Xv6.Fs.Inode

/-! Directories and path names of `kernel/fs.c`. A C string is the list of its bytes before the terminating NUL. -/

namespace Xv6.Fs
open Lib

abbrev Path : Type := List UInt8

def slash : UInt8 := 0x2f
def dot : UInt8 := 0x2e

/-- `strncmp(p, q, n) == 0`, from byte `i` on. -/
def strncmpEq (p q : Nat → UInt8) : Nat → Nat → Bool
  | 0, _ => true
  | n + 1, i => if p i ≠ 0 ∧ p i = q i then strncmpEq p q n (i + 1) else p i = q i

def charAt (l : List UInt8) (i : Nat) : UInt8 := l.getD i 0

def Dirent.char (de : Dirent) (i : Nat) : UInt8 := if h : i < DIRSIZ then de.name ⟨i, h⟩ else 0

def Dirent.named (de : Dirent) (name : List UInt8) : Bool := strncmpEq (charAt name) de.char DIRSIZ 0

def namecmpEq (s t : List UInt8) : Bool := strncmpEq (charAt s) (charAt t) DIRSIZ 0

/-- `strncpy(de.name, name, DIRSIZ); de.inum = inum;` -/
def Dirent.make (name : List UInt8) (inum : Nat) : Dirent := ⟨UInt16.ofNat inum, fun i => charAt (name.takeWhile (· ≠ 0)) i⟩

def Dirent.bytes (de : Dirent) : List UInt8 :=
  UInt8.ofNat de.inum.toNat :: UInt8.ofNat (de.inum.toNat / 256) :: (List.finRange DIRSIZ).map de.name

def Dirent.ofBytes (l : List UInt8) : Dirent where
  inum := UInt16.ofNat ((l.getD 0 0).toNat + 256 * (l.getD 1 0).toNat)
  name i := l.getD (2 + i) 0

/-- Entry `k` of directory `d` has been written, for an inode in lifetime `life`. -/
def Ghost.name (g : Ghost) (d k life : Nat) : Ghost :=
  { g with named := fun d' k' => if d' = d ∧ k' = k then life else g.named d' k' }

section
variable (sb : Superblock)

/-- `readi` of the directory entry at offset `off`, with a panic unless it is read as a whole. -/
def readDirent (dp : Fin NINODE) (off : Nat) (msg : String) : M Dirent := do
  let (r, l) ← readi sb dp Sink.kernel off DESIZE
  stopIf (r ≠ DESIZE) (.panic msg)
  pure (.ofBytes l)

/-- Look for a directory entry in a directory. If found, return its inode and its byte offset. -/
def dirlookup (dp : Fin NINODE) (name : List UInt8) : M (Option (Fin NINODE × Nat)) := do
  let x ← view fun s => s.itable dp
  stopIf (x.d.type ≠ T_DIR) (.panic "dirlookup not DIR")
  forUp .stuck DESIZE (2 ^ 32) 0 x.d.size.toNat fun off => do
    let de ← readDirent sb dp off "dirlookup read"
    if de.inum = 0 then pure none
    else if de.named name then
      let ip ← iget de.inum.toNat
      pure (some (ip, off))
    else pure none

/-- The offset of the first empty entry of a directory, or the one after the last entry. -/
def emptySlot (dp : Fin NINODE) : M Nat := do
  let x ← view fun s => s.itable dp
  let size := x.d.size.toNat
  let r ← forUp .stuck DESIZE (2 ^ 32) 0 size fun off => do
    let de ← readDirent sb dp off "dirlink read"
    if de.inum = 0 then pure (some off) else pure none
  pure (r.getD ((size + (DESIZE - 1)) / DESIZE * DESIZE))

/-- Write a new directory entry (name, inum) into the directory. Returns 0 on success, -1 on failure. -/
def dirlink (dp : Fin NINODE) (name : List UInt8) (inum : Nat) : M Int := do
  match ← dirlookup sb dp name with
  | some (ip, _) =>
    iput sb ip
    pure (-1)
  | none =>
    let off ← emptySlot sb dp
    let r ← writei sb dp (.kernel (Dirent.make name inum).bytes) off DESIZE
    if r ≠ DESIZE then pure (-1)
    else
      onGhost fun s => s.ghost.name (s.itable dp).inum (off / DESIZE) (s.ghost.born inum)
      pure 0

end

/-- Take the next path element off the path, cut to `DIRSIZ` bytes, and the slashes behind it. -/
def skipelem (path : Path) : Option (List UInt8 × Path) :=
  let s := path.dropWhile (· = slash)
  if s = [] then none
  else some ((s.takeWhile (· ≠ slash)).take DIRSIZ, (s.dropWhile (· ≠ slash)).dropWhile (· = slash))

/-- The path elements that successive calls of `skipelem` return. -/
def pathElems : Nat → Path → List (List UInt8)
  | 0, _ => []
  | rounds + 1, path =>
    match skipelem path with
    | none => []
    | some (name, rest) => name :: pathElems rounds rest

def elems (path : Path) : List (List UInt8) := pathElems path.length path

section
variable (sb : Superblock)

/-- The loop of `namex` with `nameiparent == 0`, from the inode `ip` on. -/
def namexLoop (ip : Fin NINODE) : List (List UInt8) → M (Option (Fin NINODE))
  | [] => pure (some ip)
  | name :: rest => do
    ilock sb ip
    let x ← view fun s => s.itable ip
    if x.d.type ≠ T_DIR then
      iunlockput sb ip
      pure none
    else
      match ← dirlookup sb ip name with
      | none =>
        iunlockput sb ip
        pure none
      | some (next, _) =>
        iunlockput sb ip
        namexLoop next rest

/-- The loop of `namex` with `nameiparent == 1`: it stops one level early, with the last element. -/
def namexParent (ip : Fin NINODE) : List (List UInt8) → M (Option (Fin NINODE × List UInt8))
  | [] => do
    iput sb ip
    pure none
  | name :: rest => do
    ilock sb ip
    let x ← view fun s => s.itable ip
    if x.d.type ≠ T_DIR then
      iunlockput sb ip
      pure none
    else if rest = [] then
      iunlock sb ip
      pure (some (ip, name))
    else
      match ← dirlookup sb ip name with
      | none =>
        iunlockput sb ip
        pure none
      | some (next, _) =>
        iunlockput sb ip
        namexParent next rest

end

/-- Where `namex` starts: the root or the current directory of process `p`. -/
def namexStart (p : Fin NPROC) (path : Path) : M (Fin NINODE) := do
  if path.head? = some slash then iget ROOTINO
  else
    match ← view fun s => (s.proc p).cwd with
    | some e =>
      idup e
      pure e
    | none => halt .fault

variable (sb : Superblock)

def namei (p : Fin NPROC) (path : Path) : M (Option (Fin NINODE)) := do
  let ip ← namexStart p path
  namexLoop sb ip (elems path)

def nameiparent (p : Fin NPROC) (path : Path) : M (Option (Fin NINODE × List UInt8)) := do
  let ip ← namexStart p path
  namexParent sb ip (elems path)

end Xv6.Fs
