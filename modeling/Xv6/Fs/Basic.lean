import Xv6.Fs.Layout
import Xv6.Lib.Hoare

/-! The state of the file system, the log as file-system calls see it (`kernel/log.c`), and the block allocator of
    `kernel/fs.c`. A system call runs without interleaving; the disk is what is read through the buffer cache. -/

namespace Xv6.Fs
open Lib

/-- `struct inode`. There is one device. The sleep-lock is held by the process in the current call or by nobody. -/
structure Inode where
  inum : Nat
  ref : Int
  locked : Bool
  valid : Bool
  -- `type`, `major`, `minor`, `nlink`, `size`, `addrs`
  d : Dinode

inductive FdType where
  | none
  | pipe
  | inode
  | device
  deriving DecidableEq, Repr

structure File where
  type : FdType
  ref : Int
  readable : Bool
  writable : Bool
  pipe : Nat
  ip : Fin NINODE
  off : Nat
  major : Int16

/-- `struct pipe`, as far as opening and closing go. -/
structure Pipe where
  readopen : Bool
  writeopen : Bool
  deriving DecidableEq

/-- The open files and the current directory of a process. A process that is not in use has none. -/
structure Proc where
  ofile : Fin NOFILE → Option (Fin NFILE)
  cwd : Option (Fin NINODE)

/-- What a commit left on disk, and which inodes were referenced in memory at that moment. -/
structure Commit where
  disk : Disk
  used : Nat → Bool

/-- What a history tells about the state. Nothing of it is read by the code. -/
structure Ghost where
  commits : List Commit
  -- no inode has been unlocked while its valid copy in memory differed from the disk
  clean : Bool
  -- the contents of each directory that `iput` has freed
  buried : List (List Dirent)
  -- how often each inode has been allocated
  born : Nat → Nat
  -- for each directory and entry, the lifetime of the inode it named when it was written
  named : Nat → Nat → Nat

structure Sys where
  disk : Disk
  -- block numbers in the log header
  lh : List Nat
  outstanding : Nat
  itable : Fin NINODE → Inode
  ftable : Fin NFILE → File
  proc : Fin NPROC → Proc
  pipe : Nat → Option Pipe
  ghost : Ghost

inductive Stop where
  | panic (msg : String)
  -- sleeps, and only the process itself could wake it up
  | hang
  -- access through a null pointer or to a freed pipe
  | fault
  | stuck
  deriving DecidableEq, Repr

abbrev M : Type → Type := EStateM Stop Sys

def Sys.used (s : Sys) (inum : Nat) : Bool :=
  (List.finRange NINODE).any fun e => 0 < (s.itable e).ref && (s.itable e).inum == inum

def Sys.durable (s : Sys) : Disk := (s.ghost.commits.head?.map (·.disk)).getD s.disk

def Sys.commit (s : Sys) : Sys :=
  { s with
    lh := []
    ghost := { s.ghost with
      commits := ⟨fun b => if b ∈ s.lh then s.disk b else s.durable b, s.used⟩ :: s.ghost.commits } }

def beginOp : M Unit := do
  let n ← view fun s => s.lh.length + (s.outstanding + 1) * MAXOPBLOCKS
  stopIf (n > LOGSIZE) .hang
  change fun s => { s with outstanding := s.outstanding + 1 }

def endOp : M Unit := do
  change fun s => { s with outstanding := s.outstanding - 1 }
  let n ← view (·.outstanding)
  doIf (n = 0) (change Sys.commit)

def bread (b : Nat) : M Block := view fun s => s.disk b

def Sys.write (s : Sys) (b : Nat) (x : Block) : Sys := { s with disk := Function.update s.disk b x }

section
variable (s : Sys) (b : Nat) (x : Block)

@[simp] theorem write_disk : (s.write b x).disk = Function.update s.disk b x := rfl

end

variable (sb : Superblock)

/-- `log_write` of the buffer of block `b`, after its data has become `x`. -/
def logWrite (b : Nat) (x : Block) : M Unit := do
  let n ← view (·.lh.length)
  stopIf (n ≥ LOGSIZE ∨ n + 1 ≥ sb.nlog) (.panic "too big a transaction")
  let n ← view (·.outstanding)
  stopIf (n < 1) (.panic "log_write outside of trans")
  change fun s => { s.write b x with lh := if b ∈ s.lh then s.lh else s.lh ++ [b] }

def bzero (bno : Nat) : M Unit := logWrite sb bno Bytes.zero

/-- The first clear bit of a free map block, from bit `bi` on, for blocks below `size`. -/
def freeBit (x : Block) (b size : Nat) : Nat → Nat → Option Nat
  | 0, _ => none
  | rounds + 1, bi =>
    if b + bi < size then
      if testBit x bi then freeBit x b size rounds (bi + 1) else some bi
    else none

def balloc : M Nat := do
  let r ← forUp .stuck BPB (2 ^ 32) 0 sb.size fun b => do
    let x ← bread (sb.BBLOCK b)
    match freeBit x b sb.size BPB 0 with
    | some bi =>
      logWrite sb (sb.BBLOCK b) (setBit x bi)
      bzero sb (b + bi)
      pure (some (b + bi))
    | none => pure none
  pure (r.getD 0)

def bfree (b : Nat) : M Unit := do
  let x ← bread (sb.BBLOCK b)
  stopIf (testBit x (b % BPB) = false) (.panic "freeing free block")
  logWrite sb (sb.BBLOCK b) (clearBit x (b % BPB))

end Xv6.Fs
