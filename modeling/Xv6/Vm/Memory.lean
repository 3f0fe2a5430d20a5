import Xv6.Lib.Bytes
import Xv6.Lib.Hoare
import Xv6.Riscv

/-! Physical memory, its allocator (`kernel/kalloc.c`) and the kernel state that refers to pages. An operation can be
    stopped where it calls `kalloc` or `kfree`, to see who owns which page, and `kalloc` may find no memory at any
    call. -/

namespace Xv6.Vm
open Lib

abbrev Slot := Fin NPROC
abbrev Page := Bytes PGSIZE

/-- The addresses that linking the kernel fixes: `end` and `trampoline`. -/
structure Layout where
  kend : Nat
  trampoline : Nat
  aligned : trampoline % PGSIZE = 0
  base : KERNBASE ≤ trampoline
  below : trampoline + PGSIZE ≤ kend
  kend_le : kend ≤ PHYSTOP

inductive Stop where
  | panic (text : String)
  -- looked at as it calls `kalloc()`, or `kfree(pa)`
  | call (pa : Option Nat)
  -- a loop makes more rounds than its bounds allow without wrapping around
  | stuck
  | fault
  deriving DecidableEq, Repr

/-- `runnable` stands for SLEEPING and RUNNING too. -/
inductive State where
  | unused | used | runnable | zombie
  deriving DecidableEq, Repr

/-- `struct proc`, as far as it concerns memory. A null pointer is 0. -/
structure Proc where
  state : State
  pid : Int
  parent : Option Slot
  xstate : BitVec 32
  sz : Nat
  pagetable : Nat
  trapframe : Nat
  name : List UInt8

structure Pipe where
  pa : Nat
  readopen : Bool
  writeopen : Bool

structure Sys where
  page : Nat → Page
  -- `kmem.freelist`; a free page holds the next one in its first word
  freelist : Nat
  proc : Slot → Proc
  initproc : Slot
  nextpid : Int
  pipes : List Pipe
  -- the kernel page table, the kernel stacks and the disk's queues
  kernel : List Nat
  -- the calls of `kalloc` that find no memory, the call at which to look, and the calls so far
  refuse : Nat → Bool
  watch : Option Nat
  calls : Nat

abbrev VmM := EStateM Stop Sys

def Sys.setPage (s : Sys) (pa : Nat) (b : Page) : Sys := { s with page := Function.update s.page pa b }

def Sys.setFree (s : Sys) (pa : Nat) : Sys := { s with freelist := pa }

def Sys.word (s : Sys) (a : Nat) : Nat := (s.page (pgRoundDown a)).le (a % PGSIZE) 8

def Sys.setWord (s : Sys) (a v : Nat) : Sys :=
  s.setPage (pgRoundDown a) ((s.page (pgRoundDown a)).put (a % PGSIZE) 8 v)

def Sys.bytes (s : Sys) (a n : Nat) : List UInt8 :=
  (List.range n).map fun i => (s.page (pgRoundDown a)).get (a % PGSIZE + i)

def Sys.setBytes (s : Sys) (a : Nat) (l : List UInt8) : Sys :=
  s.setPage (pgRoundDown a) ((s.page (pgRoundDown a)).write (a % PGSIZE) l.length fun i => l.getD i 0)

def load (a : Nat) : VmM Nat := view fun s => s.word a
def store (a v : Nat) : VmM Unit := change fun s => s.setWord a v

def memset (pa : Nat) (c : UInt8) : VmM Unit := change fun s => s.setPage pa (Bytes.fill c)

def copyPage (dst src : Nat) : VmM Unit := change fun s => s.setPage dst (s.page src)

def Sys.called (s : Sys) : Sys := { s with calls := s.calls + 1 }

def look (pa : Option Nat) : VmM Unit := do
  if ← view fun s => s.watch == some s.calls then halt (.call pa)
  change Sys.called

def kfree (L : Layout) (pa : Nat) : VmM Unit := do
  look (some pa)
  if pa % PGSIZE ≠ 0 ∨ pa < L.kend ∨ PHYSTOP ≤ pa then halt (.panic "kfree")
  memset pa 1
  let next ← view Sys.freelist
  store pa next
  change fun s => s.setFree pa

def kalloc : VmM Nat := do
  look none
  if ← view fun s => s.refuse s.calls then pure 0
  else
    let r ← view Sys.freelist
    if r = 0 then pure 0
    else
      let next ← load r
      change fun s => s.setFree next
      memset r 5
      pure r

/-- `for(; p + PGSIZE <= pa_end; p += PGSIZE)` -/
def freerange (L : Layout) (paStart paEnd : Nat) : VmM Unit := do
  let _ ← forUp .stuck PGSIZE (2 ^ 64) (pgRoundUp paStart) (paEnd + 1 - PGSIZE) fun p => do
    kfree L p
    pure (none : Option Unit)

def kinit (L : Layout) : VmM Unit := freerange L L.kend PHYSTOP

end Xv6.Vm
