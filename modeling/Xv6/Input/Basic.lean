import Xv6.Console.Basic
import Xv6.Fs.File
import Xv6.Pipe.Basic
import Xv6.Vm.UserCopy

/-! `read` down to the bytes of user memory: `fileread` with `piperead`, `consoleread` and `readi` over page tables. A
    process that sleeps finds on waking up what others have made of the pipe and of the console. -/

namespace Xv6.Input
open Lib

/-- What is there when a call of `sleep` returns. -/
structure Nap where
  killed : Bool
  pipe : Pipe
  cons : Cons

structure Sys where
  mem : Vm.Sys
  fs : Fs.Sys
  -- the pipe that is read, the console, and whether the process has been killed
  pipe : Pipe
  cons : Cons
  killed : Bool
  -- how the next calls of `sleep` end
  naps : List Nap
  -- the bytes that the call has removed from the pipe or from `cons.buf`; the code does not know of them
  removed : List UInt8

inductive Stop where
  -- nobody wakes it up any more
  | asleep
  | vm (e : Vm.Stop)
  | fs (e : Fs.Stop)

abbrev M := EStateM Stop Sys

def Sys.setMem (s : Sys) (mem : Vm.Sys) : Sys := { s with mem }
def Sys.setFs (s : Sys) (fs : Fs.Sys) : Sys := { s with fs }

def vm {α : Type} (m : Vm.VmM α) : M α := fun s =>
  match m s.mem with
  | .ok a t => .ok a (s.setMem t)
  | .error e t => .error (.vm e) (s.setMem t)

def fs {α : Type} (m : Fs.M α) : M α := fun s =>
  match m s.fs with
  | .ok a t => .ok a (s.setFs t)
  | .error e t => .error (.fs e) (s.setFs t)

def Sys.wake (s : Sys) (nap : Nap) (naps : List Nap) : Sys :=
  { s with killed := nap.killed, pipe := nap.pipe, cons := nap.cons, naps }

def sleep : M Unit := do
  match ← view Sys.naps with
  | [] => halt .asleep
  | nap :: naps => change fun s => s.wake nap naps

/-- `while(empty){ if(killed(pr)) return -1; sleep(...); }`: `false` when the process has been killed. -/
def await (empty : Sys → Bool) : Nat → M Bool
  | 0 => halt .asleep
  | fuel + 1 => do
    if ← view empty then
      if ← view Sys.killed then pure false
      else
        sleep
        await empty fuel
    else pure true

def Sys.takePipe (s : Sys) : Sys := { s with pipe := s.pipe.take, removed := s.removed ++ [s.pipe.next] }

def pipeCopy (pagetable addr n : Nat) : Nat → Nat → M Nat
  | 0, i => pure i
  | rounds + 1, i => do
    if i < n then
      if ← view fun s => decide s.pipe.isEmpty then pure i
      else
        let ch ← view fun s => s.pipe.next
        change Sys.takePipe
        let r ← vm (Vm.copyout pagetable ((addr + i) % 2 ^ 64) [ch])
        if r = -1 then pure i else pipeCopy pagetable addr n rounds (i + 1)
    else pure i

def piperead (pagetable addr : Nat) (n : Int) : M Int := do
  let naps ← view Sys.naps
  if ← await (fun s => decide (s.pipe.isEmpty ∧ s.pipe.writeopen)) (naps.length + 1) then
    let i ← pipeCopy pagetable addr n.toNat n.toNat 0
    pure i
  else pure (-1)

def Sys.takeCons (s : Sys) : Sys :=
  { s with cons := { s.cons with r := s.cons.r + 1 }, removed := s.removed ++ [Console.cell s.cons s.cons.r] }

def Sys.backCons (s : Sys) : Sys := { s with cons := { s.cons with r := s.cons.r - 1 }, removed := s.removed.dropLast }

def consoleLoop (pagetable target : Nat) : Nat → Nat → M Int
  | 0, _ => pure target
  | n + 1, dst => do
    let naps ← view Sys.naps
    if ← await (fun s => decide (s.cons.r = s.cons.w)) (naps.length + 1) then
      let c ← view fun s => Console.cell s.cons s.cons.r
      change Sys.takeCons
      if c = Console.C 'D' then
        -- save ^D for next time, to make sure that the caller gets a 0-byte result
        doIf (n + 1 < target) (change Sys.backCons)
        pure (target - (n + 1))
      else
        let r ← vm (Vm.copyout pagetable dst [c])
        if r = -1 then pure (target - (n + 1))
        else if c = Console.NL then pure (target - n)
        else consoleLoop pagetable target n ((dst + 1) % 2 ^ 64)
    else pure (-1)

def consoleread (pagetable dst : Nat) (n : Int) : M Int := consoleLoop pagetable n.toNat n.toNat dst

section
variable (sb : Fs.Superblock)

def readiLoop (e : Fin NINODE) (pagetable dst n : Nat) : Nat → Nat → Nat → M Int
  | 0, tot, _ => pure tot
  | rounds + 1, tot, off => do
    if tot < n then
      let addr ← fs (Fs.bmap sb e (off / BSIZE))
      if addr = 0 then pure tot
      else
        let x ← fs (Fs.bread addr)
        let m := min (n - tot) (BSIZE - off % BSIZE)
        let r ← vm (Vm.copyout pagetable ((dst + tot) % 2 ^ 64) ((List.range m).map fun i => x.get (off % BSIZE + i)))
        if r = -1 then pure (-1) else readiLoop e pagetable dst n rounds (tot + m) (off + m)
    else pure tot

/-- Read data from inode. `off` and `n` are of type `uint`. -/
def readi (e : Fin NINODE) (pagetable dst off n : Nat) : M Int := do
  let x ← view fun s => s.fs.itable e
  let size := x.d.size.toNat
  if off > size ∨ (off + n) % 2 ^ 32 < off then pure 0
  else
    let n := if off + n > size then size - off else n
    readiLoop sb e pagetable dst n n 0 off

/-- Read from file `i` to user address `addr`. -/
def fileread (i : Fin NFILE) (pagetable : Nat) (addr : BitVec 64) (n : BitVec 32) : M Int := do
  let f ← view fun s => s.fs.ftable i
  if f.readable = false then pure (-1)
  else
    match f.type with
    | .pipe => piperead pagetable addr.toNat n.toInt
    | .device =>
      if Fs.badMajor f.major ∨ Fs.hasDriver f.major = false then pure (-1)
      else consoleread pagetable addr.toNat n.toInt
    | .inode =>
      fs (Fs.ilock sb f.ip)
      let r ← readi sb f.ip pagetable addr.toNat f.off n.toNat
      doIf (r > 0) (fs (Fs.onFile i fun f => f.setOff ((f.off + r.toNat) % 2 ^ 32)))
      fs (Fs.iunlock sb f.ip)
      pure r
    | .none => halt (.fs (.panic "fileread"))

end

end Xv6.Input
