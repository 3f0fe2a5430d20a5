import Xv6.Proc.Table
import Xv6.Vm.PageTable

/-! The life of an address space: `allocproc`, `freeproc`, `userinit`, `growproc`, `fork`, `exit` and `wait` of
    `kernel/proc.c`, and the pages of pipes. Open files are left out; a system call runs without interleaving. -/

namespace Xv6.Vm
open Lib

def Sys.setProc (s : Sys) (i : Slot) (p : Proc) : Sys := { s with proc := Function.update s.proc i p }

def onProc (i : Slot) (f : Proc → Proc) : VmM Unit := change fun s => s.setProc i (f (s.proc i))

def Proc.setTrapframe (p : Proc) (pa : Nat) : Proc := { p with trapframe := pa }
def Proc.setPagetable (p : Proc) (pa : Nat) : Proc := { p with pagetable := pa }
def Proc.setSz (p : Proc) (sz : Nat) : Proc := { p with sz }
def Proc.setState (p : Proc) (state : State) : Proc := { p with state }
def Proc.setParent (p : Proc) (parent : Option Slot) : Proc := { p with parent }
def Proc.setName (p : Proc) (name : List UInt8) : Proc := { p with name }

/-- A slot of the process table that is not in use, as `freeproc` leaves it. -/
def Proc.blank (p : Proc) : Proc :=
  { p with pagetable := 0, sz := 0, pid := 0, parent := none, name := [], xstate := 0, state := .unused }

/-! Offsets in `struct trapframe`, and its size. -/

def tfEpc : Nat := 24
def tfSp : Nat := 48
def tfA0 : Nat := 112
def tfA1 : Nat := 120
def tfSize : Nat := 288

/-- `safestrcpy` of at most `n` bytes with the terminating NUL, which is left out. -/
def safestrcpy (t : List UInt8) (n : Nat) : List UInt8 := (t.take (n - 1)).takeWhile (· ≠ 0)

def procPagetable (L : Layout) (trapframe : Nat) : VmM Nat := do
  let pagetable ← uvmcreate
  if pagetable = 0 then pure 0
  else
    let r ← mappages pagetable TRAMPOLINE PGSIZE L.trampoline (PTE_R ||| PTE_X)
    if r < 0 then
      uvmfree L pagetable 0
      pure 0
    else
      let r ← mappages pagetable TRAPFRAME PGSIZE trapframe (PTE_R ||| PTE_W)
      if r < 0 then
        uvmunmap L pagetable TRAMPOLINE 1 false
        uvmfree L pagetable 0
        pure 0
      else pure pagetable

def procFreepagetable (L : Layout) (pagetable sz : Nat) : VmM Unit := do
  uvmunmap L pagetable TRAMPOLINE 1 false
  uvmunmap L pagetable TRAPFRAME 1 false
  uvmfree L pagetable sz

def freeproc (L : Layout) (i : Slot) : VmM Unit := do
  let p ← view fun s => s.proc i
  if p.trapframe ≠ 0 then kfree L p.trapframe
  onProc i (·.setTrapframe 0)
  if p.pagetable ≠ 0 then procFreepagetable L p.pagetable p.sz
  onProc i Proc.blank

def firstUnused (s : Sys) : Option Slot := (List.finRange NPROC).find? fun i => (s.proc i).state == .unused

/-- `p->pid = allocpid(); p->state = USED;` -/
def Sys.claim (s : Sys) (i : Slot) : Sys :=
  { s.setProc i { s.proc i with pid := s.nextpid, state := .used } with nextpid := ProcTable.incInt s.nextpid }

def allocproc (L : Layout) : VmM (Option Slot) := do
  match ← view firstUnused with
  | none => pure none
  | some i =>
    change fun s => s.claim i
    let trapframe ← kalloc
    onProc i (·.setTrapframe trapframe)
    if trapframe = 0 then
      freeproc L i
      pure none
    else
      let pagetable ← procPagetable L trapframe
      onProc i (·.setPagetable pagetable)
      if pagetable = 0 then
        freeproc L i
        pure none
      else pure (some i)

/-- `initcode`, the first user program. -/
def initcode : List UInt8 :=
  [0x17, 0x05, 0x00, 0x00, 0x13, 0x05, 0x45, 0x02,
   0x97, 0x05, 0x00, 0x00, 0x93, 0x85, 0x35, 0x02,
   0x93, 0x08, 0x70, 0x00, 0x73, 0x00, 0x00, 0x00,
   0x93, 0x08, 0x20, 0x00, 0x73, 0x00, 0x00, 0x00,
   0xef, 0xf0, 0x9f, 0xff, 0x2f, 0x69, 0x6e, 0x69,
   0x74, 0x00, 0x00, 0x24, 0x00, 0x00, 0x00, 0x00,
   0x00, 0x00, 0x00, 0x00]

def uvmfirst (pagetable : Nat) (src : List UInt8) : VmM Unit := do
  if PGSIZE ≤ src.length then halt (.panic "uvmfirst: more than a page")
  let mem ← kalloc
  if mem = 0 then halt .fault
  memset mem 0
  let _ ← mappages pagetable 0 PGSIZE mem (PTE_W ||| PTE_R ||| PTE_X ||| PTE_U)
  change fun s => s.setBytes mem src

def userinit (L : Layout) : VmM Unit := do
  match ← allocproc L with
  | none => halt .fault
  | some i =>
    change fun s => { s with initproc := i }
    let p ← view fun s => s.proc i
    uvmfirst p.pagetable initcode
    onProc i (·.setSz PGSIZE)
    store (p.trapframe + tfEpc) 0
    store (p.trapframe + tfSp) PGSIZE
    -- "initcode"
    onProc i (·.setName [0x69, 0x6e, 0x69, 0x74, 0x63, 0x6f, 0x64, 0x65])
    onProc i (·.setState .runnable)

def addInt (sz : Nat) (n : BitVec 32) : Nat := ((sz + n.toInt) % 2 ^ 64).toNat

def growproc (L : Layout) (i : Slot) (n : BitVec 32) : VmM Int := do
  let p ← view fun s => s.proc i
  if 0 < n.toInt then
    let sz ← uvmalloc L p.pagetable p.sz (addInt p.sz n) PTE_W
    if sz = 0 then pure (-1)
    else
      onProc i (·.setSz sz)
      pure 0
  else
    if n.toInt < 0 then
      let sz ← uvmdealloc L p.pagetable p.sz (addInt p.sz n)
      onProc i (·.setSz sz)
    pure 0

def fork (L : Layout) (i : Slot) : VmM Int := do
  match ← allocproc L with
  | none => pure (-1)
  | some j =>
    let p ← view fun s => s.proc i
    let np ← view fun s => s.proc j
    let r ← uvmcopy L p.pagetable np.pagetable p.sz
    if r < 0 then
      freeproc L j
      pure (-1)
    else
      onProc j (·.setSz p.sz)
      change fun s => s.setBytes np.trapframe (s.bytes p.trapframe tfSize)
      store (np.trapframe + tfA0) 0
      onProc j (·.setName (safestrcpy p.name 16))
      onProc j (·.setParent (some i))
      onProc j (·.setState .runnable)
      pure np.pid

/-- `reparent`, then the last step of `exit`. -/
def Sys.exit (s : Sys) (i : Slot) (status : BitVec 32) : Sys :=
  let proc := fun j => if (s.proc j).parent = some i then (s.proc j).setParent (some s.initproc) else s.proc j
  { s with proc := Function.update proc i { proc i with xstate := status, state := .zombie } }

def exit (i : Slot) (status : BitVec 32) : VmM Unit := do
  if ← view fun s => i == s.initproc then halt (.panic "init exiting")
  change fun s => s.exit i status

def firstZombie (i : Slot) (s : Sys) : Option Slot :=
  (List.finRange NPROC).find? fun j => (s.proc j).parent == some i && (s.proc j).state == .zombie

def intBytes (x : BitVec 32) : List UInt8 := (List.range 4).map fun k => UInt8.ofNat (x.toNat / 256 ^ k)

/-- One scan of `wait`; without an exited child it returns -1 or goes to sleep. -/
def wait (L : Layout) (i : Slot) (addr : Nat) : VmM Int := do
  match ← view (firstZombie i) with
  | none => pure (-1)
  | some j =>
    let p ← view fun s => s.proc i
    let pp ← view fun s => s.proc j
    let r ← if addr ≠ 0 then copyout p.pagetable addr (intBytes pp.xstate) else pure 0
    if r < 0 then pure (-1)
    else
      freeproc L j
      pure pp.pid

def Sys.setPipes (s : Sys) (pipes : List Pipe) : Sys := { s with pipes }

/-- `f0` and `f1` say whether `filealloc` finds a free file. -/
def pipealloc (f0 f1 : Bool) : VmM Int := do
  if !f0 || !f1 then pure (-1)
  else
    let pi ← kalloc
    if pi = 0 then pure (-1)
    else
      change fun s => s.setPipes ({ pa := pi, readopen := true, writeopen := true } :: s.pipes)
      pure 0

def Pipe.close (pi : Pipe) (writable : Bool) : Pipe :=
  if writable then { pi with writeopen := false } else { pi with readopen := false }

/-- `pipeclose` of the open pipe in page `pa`. -/
def pipeclose (L : Layout) (pa : Nat) (writable : Bool) : VmM Unit := do
  match ← view fun s => s.pipes.find? (·.pa == pa) with
  | none => pure ()
  | some pi =>
    let rest ← view fun s => s.pipes.filter (·.pa != pa)
    let pi := pi.close writable
    if !pi.readopen && !pi.writeopen then
      change fun s => s.setPipes rest
      kfree L pa
    else change fun s => s.setPipes (pi :: rest)

end Xv6.Vm
