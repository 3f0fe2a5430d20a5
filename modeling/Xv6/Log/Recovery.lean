import Xv6.Disk
import Xv6.Lib.Hoare
import Xv6.Log.Basic

/-! `commit()` and `recover_from_log()` of `kernel/log.c` on a disk that may lose power before any block write. -/

namespace Xv6.Recovery
open Lib

/-- The kernel's memory, as far as the log is concerned, and the disk. -/
structure Machine where
  disk : Disk
  /-- The buffer cache: the data of the cached blocks. -/
  cache : Nat → Option Block
  log : Log
  /-- How many more block writes reach the disk before the power fails; `none` if it does not fail. -/
  left : Option Nat

inductive Crash where
  | powerFailure

abbrev DiskM : Type → Type := EStateM Crash Machine

def Machine.data (m : Machine) (b : Nat) : Block := (m.cache b).getD (m.disk b)

/-- `bread`, from the cache or from the disk. -/
def bread (b : Nat) : DiskM Block := do
  let x ← view fun m => m.data b
  change fun m => { m with cache := Function.update m.cache b (some x) }
  return x

def setData (b : Nat) (x : Block) : DiskM Unit :=
  change fun m => { m with cache := Function.update m.cache b (some x) }

/-- `bwrite`: one atomic block write, unless the power fails first. -/
def bwrite (b : Nat) : DiskM Unit := do
  match ← view (·.left) with
  | none => change fun m => { m with disk := Function.update m.disk b (m.data b) }
  | some 0 => halt .powerFailure
  | some (k + 1) => change fun m => { m with disk := Function.update m.disk b (m.data b), left := some k }

/-- A C `int` from its 32 bits. -/
def toInt (w : Nat) : Int := if w < 2 ^ 31 then w else (w : Int) - 2 ^ 32

/-- `lh->n` of the header in a block. A negative `n` runs no round of any loop, so it counts as 0. -/
def headN (x : Block) : Nat := (toInt (x.le 0 4)).toNat

/-- `lh->block[i]` of the header in a block. -/
def headBlock (x : Block) (i : Nat) : Nat := x.le (4 * (i + 1)) 4

/-- `hb->n = n; for (i = 0; i < n; i++) hb->block[i] = block[i];` -/
def putHead (x : Block) (lh : LogHeader) : Block :=
  (List.range lh.n).foldl (fun x i => x.put (4 * (i + 1)) 4 (lh.block i)) (x.put 0 4 lh.n)

/-- Copy committed blocks from the log to their home location. No buffer of this cache is ever recycled, so unpinning
    does not matter. -/
def installTrans (_recovering : Bool) : DiskM Unit := do
  let log ← view (·.log)
  loop (fun tail => do
    let lbuf ← bread (log.start + tail + 1)
    let _ ← bread (log.lh.block tail)
    setData (log.lh.block tail) lbuf
    bwrite (log.lh.block tail)) log.lh.n

def readHead : DiskM Unit := do
  let start ← view (·.log.start)
  let buf ← bread start
  change fun m => { m with log := { m.log with lh :=
    { n := headN buf, block := fun i => if i < headN buf then headBlock buf i else m.log.lh.block i } } }

def writeHead : DiskM Unit := do
  let log ← view (·.log)
  let buf ← bread log.start
  setData log.start (putHead buf log.lh)
  bwrite log.start

def clearHead : DiskM Unit :=
  change fun m => { m with log := { m.log with lh := { m.log.lh with n := 0 } } }

def recoverFromLog : DiskM Unit := do
  readHead
  installTrans true
  clearHead
  writeHead

def writeLog : DiskM Unit := do
  let log ← view (·.log)
  loop (fun tail => do
    let _ ← bread (log.start + tail + 1)
    let from_ ← bread (log.lh.block tail)
    setData (log.start + tail + 1) from_
    bwrite (log.start + tail + 1)) log.lh.n

def commit : DiskM Unit := do
  if (← view (·.log.lh.n)) > 0 then
    writeLog
    writeHead
    installTrans false
    clearHead
    writeHead

def diskAfter (m : DiskM Unit) (s : Machine) : Disk :=
  match m s with
  | .ok _ t => t.disk
  | .error _ t => t.disk

/-- `initlog` after a reboot, up to `recover_from_log`: memory is fresh. -/
def reboot (start size : Nat) (d : Disk) (left : Option Nat) : Machine where
  disk := d
  cache _ := none
  log := { start, size, outstanding := 0, committing := false, lh := ⟨0, fun _ => 0⟩ }
  left

/-- The disk after a series of interrupted recoveries; each one's power fails after that many writes. -/
def crashes (start size : Nat) : Disk → List Nat → Disk
  | d, [] => d
  | d, k :: ks => crashes start size (diskAfter recoverFromLog (reboot start size d (some k))) ks

end Xv6.Recovery
