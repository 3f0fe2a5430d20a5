import Xv6.Proc.Nesting
import Xv6.Trap.Asm

/-! Traps and context switches of `kernel/trap.c` and `kernel/proc.c`, as far as registers go. C code is any change of
    registers that keeps to the calling convention; the assembly is that of `Xv6.Trap.Asm`. -/

namespace Xv6.Trap
open Nesting (Tid)
open ProcTable (State)

variable {C P : Type}

/-- Where things lie: no two `struct context`s overlap. -/
structure Layout (C P : Type) where
  context : Tid C P → Word
  apart : ∀ i j, i ≠ j → ∀ k l, k < 112 → l < 112 → context i + off k ≠ context j + off l
  -- `p->kstack + PGSIZE`, and the functions whose addresses are stored
  kstackTop : P → Word
  usertrap : Word
  forkret : Word

/-- An interrupt of kernel code: the registers it found, and the local variable `sepc` of `kerneltrap`. -/
structure Frame where
  regs : Regs
  sepc : Word

/-- Where the stack pointer stands while `kerneltrap` runs. -/
def Frame.base (f : Frame) : Word := f.regs .sp + -256

structure Thread where
  stack : Word → Word
  -- the interrupts it is in, the last one first; the registers in them are not known to the code
  frames : List Frame
  -- the registers with which it called `swtch`, or with which it is to start
  saved : Regs

structure Cpu (C P : Type) where
  regs : Regs
  pc : Word
  sepc : Word
  sscratch : Word
  user : Bool
  run : Tid C P

/-- How far the kernel is with a process: not in it, in a system call, and on the way back. -/
inductive Phase where
  | user | call | done
  deriving DecidableEq, Repr

structure UserTrap where
  regs : Regs
  pc : Word
  call : Bool

structure Proc (C : Type) where
  -- the words of the trapframe page, by their address in the user page table
  frame : Word → Word
  state : State
  lock : Option C
  phase : Phase
  -- the last trap, the result of its system call, and entry and stack pointer of a new image
  trap : UserTrap
  result : Word
  image : Option (Word × Word)

structure Sys (C P : Type) where
  cpu : C → Cpu C P
  thread : Tid C P → Thread
  proc : P → Proc C
  -- the memory that holds the contexts
  context : Word → Word

inductive Action (C P : Type) where
  -- user code and C code on `c`; C code may write to its stack
  | user (c : C) (regs : Regs) (pc : Word)
  | code (c : C) (regs : Regs) (pc : Word) (stack : Word → Word)
  -- a trap from user space up to the assignments to `epc`, and the way back from `usertrapret` on
  | usertrap (c : C) (call : Bool)
  | usertrapret (c : C) (satp usatp : Word)
  -- in a system call: `exec` commits, `fork` makes the process `q`, `syscall` stores the result
  | exec (c : C) (entry sp : Word)
  | fork (c : C) (q : P)
  | syscall (c : C) (result : Word)
  -- an interrupt of kernel code, and the end of `kerneltrap`
  | kernelvec (c : C)
  | kernelret (c : C)
  -- `swtch` in `sched` and in `scheduler`
  | sched (c : C)
  | scheduler (c : C) (p : P)
  -- `p->lock` and `p->state`
  | acquire (c : C) (p : P)
  | release (c : C) (p : P)
  | setState (c : C) (p : P) (st : State)

inductive Refusal where
  | disabled
  deriving DecidableEq, Repr

variable [DecidableEq C] [DecidableEq P] (L : Layout C P)

namespace Sys
variable (s : Sys C P) (c : C)

def setCpu (x : Cpu C P) : Sys C P := { s with cpu := Function.update s.cpu c x }

def setThread (i : Tid C P) (x : Thread) : Sys C P := { s with thread := Function.update s.thread i x }

def setProc (p : P) (x : Proc C) : Sys C P := { s with proc := Function.update s.proc p x }

def cur : Thread := s.thread (s.cpu c).run

end Sys

def Proc.store (x : Proc C) (f : Field) (v : Word) : Proc C := { x with frame := Function.update x.frame f.addr v }

def Cpu.machine (x : Cpu C P) (mem : Word → Word) : Machine := { regs := x.regs, sscratch := x.sscratch, mem }

/-- `uservec`, and `usertrap` up to the assignments to `p->trapframe->epc`. -/
def usertrap (s : Sys C P) (c : C) (p : P) (call : Bool) : Sys C P :=
  let x := s.cpu c
  let m := run uservec (x.machine (s.proc p).frame)
  let y := { s.proc p with frame := m.mem }.store .epc x.pc
  let y := if call then y.store .epc (y.frame Field.epc.addr + 4) else y
  (s.setCpu c { x with regs := m.regs, sscratch := m.sscratch, sepc := x.pc, pc := m.regs .t0, user := false }).setProc p
    { y with phase := if call then .call else .done, trap := ⟨x.regs, x.pc, call⟩, result := 0, image := none }

/-- `usertrapret` and `userret`; `satp` is the register's value and `usatp` that of the user page table. -/
def usertrapret (s : Sys C P) (c : C) (p : P) (satp usatp : Word) : Sys C P :=
  let x := s.cpu c
  let y := ((((s.proc p).store .kernelSatp satp).store .kernelSp (L.kstackTop p)).store .kernelTrap L.usertrap).store
    .kernelHartid (x.regs .tp)
  let sepc := y.frame Field.epc.addr
  let m := run userret ({ x with regs := Function.update x.regs .a0 usatp }.machine y.frame)
  (s.setCpu c { x with regs := m.regs, sscratch := m.sscratch, sepc, pc := sepc, user := true }).setProc p
    { y with phase := .user }

/-- The part of `exec` that changes the trapframe. -/
def execImage (x : Proc C) (entry sp : Word) : Proc C :=
  { ((x.store (.reg .a1) sp).store .epc entry).store (.reg .sp) sp with image := some (entry, sp) }

def Layout.start (q : P) : Regs := fun r =>
  match r with
  | .ra => L.forkret
  | .sp => L.kstackTop q
  | _ => 0

/-- `memset(&p->context, 0, ...)` and the two assignments of `allocproc`. -/
def allocContext (mem : Word → Word) (q : P) : Word → Word :=
  context.foldl (fun mem r => Function.update mem (L.context (.proc q) + off (contextOffset r)) (L.start q r)) mem

/-- `fork` of process `p` into the slot `q`. -/
def fork (s : Sys C P) (p q : P) : Sys C P :=
  let x := s.proc p
  let y := { s.proc q with frame := x.frame }.store (.reg .a0) 0
  { (s.setProc q { y with state := .used, phase := .done, trap := { x.trap with call := true }, result := 0,
                          image := x.image }).setThread (.proc q)
      { s.thread (.proc q) with frames := [], saved := L.start q } with context := allocContext L s.context q }

/-- `swtch` from thread `i` to thread `j`. -/
def switch (s : Sys C P) (c : C) (i j : Tid C P) : Sys C P :=
  let x := s.cpu c
  let args := Function.update (Function.update x.regs .a0 (L.context i)) .a1 (L.context j)
  let m := run swtch ({ x with regs := args }.machine s.context)
  { (s.setCpu c { x with regs := m.regs, sscratch := m.sscratch, pc := m.regs .ra, run := j }).setThread i
      { s.thread i with saved := x.regs } with context := m.mem }

def step (s : Sys C P) : Action C P → Except Refusal (Sys C P)
  | .user c regs pc => if (s.cpu c).user then .ok (s.setCpu c { s.cpu c with regs, pc }) else .error .disabled
  | .code c regs pc stack =>
    if (s.cpu c).user then .error .disabled
    else .ok ((s.setCpu c { s.cpu c with regs, pc }).setThread (s.cpu c).run { s.cur c with stack })
  | .usertrap c call =>
    match (s.cpu c).run with
    | .proc p => if (s.cpu c).user then .ok (usertrap s c p call) else .error .disabled
    | .scheduler _ => .error .disabled
  | .usertrapret c satp usatp =>
    match (s.cpu c).run with
    | .proc p => if (s.proc p).phase = .done then .ok (usertrapret L s c p satp usatp) else .error .disabled
    | .scheduler _ => .error .disabled
  | .exec c entry sp =>
    match (s.cpu c).run with
    | .proc p => if (s.proc p).phase = .call then .ok (s.setProc p (execImage (s.proc p) entry sp)) else .error .disabled
    | .scheduler _ => .error .disabled
  | .fork c q =>
    match (s.cpu c).run with
    | .proc p => if (s.proc p).phase = .call then .ok (fork L s p q) else .error .disabled
    | .scheduler _ => .error .disabled
  | .syscall c result =>
    match (s.cpu c).run with
    | .proc p =>
      if (s.proc p).phase = .call then
        .ok (s.setProc p { (s.proc p).store (.reg .a0) result with phase := .done, result })
      else .error .disabled
    | .scheduler _ => .error .disabled
  | .kernelvec c =>
    if (s.cpu c).user then .error .disabled
    else
      let x := s.cpu c
      let m := run kernelvecSave (x.machine (s.cur c).stack)
      .ok ((s.setCpu c { x with regs := m.regs, sepc := x.pc }).setThread x.run
        { s.cur c with stack := m.mem, frames := ⟨x.regs, x.pc⟩ :: (s.cur c).frames })
  | .kernelret c =>
    if (s.cpu c).user then .error .disabled
    else
      match (s.cur c).frames with
      | [] => .error .disabled
      | f :: frames =>
        let x := s.cpu c
        let m := run kernelvecRestore (x.machine (s.cur c).stack)
        .ok ((s.setCpu c { x with regs := m.regs, sepc := f.sepc, pc := f.sepc }).setThread x.run
          { s.cur c with frames })
  | .sched c =>
    match (s.cpu c).run with
    | .proc p =>
      if (s.cpu c).user = false ∧ (s.proc p).lock = some c ∧ (s.proc p).state ≠ .running then
        .ok (switch L s c (.proc p) (.scheduler c))
      else .error .disabled
    | .scheduler _ => .error .disabled
  | .scheduler c p =>
    if (s.cpu c).run = .scheduler c ∧ (s.proc p).lock = some c ∧ (s.proc p).state = .runnable then
      .ok (switch L (s.setProc p { s.proc p with state := .running }) c (.scheduler c) (.proc p))
    else .error .disabled
  | .acquire c p =>
    if (s.cpu c).user = false ∧ (s.proc p).lock = none then .ok (s.setProc p { s.proc p with lock := some c })
    else .error .disabled
  | .release c p =>
    if (s.cpu c).user = false ∧ (s.proc p).lock = some c then .ok (s.setProc p { s.proc p with lock := none })
    else .error .disabled
  | .setState c p state =>
    if (s.cpu c).user = false ∧ (s.proc p).lock = some c then .ok (s.setProc p { s.proc p with state })
    else .error .disabled

/-- What C code keeps to: it leaves the frames of interrupts alone; `kerneltrap` returns with the stack pointer and
    the callee-saved registers it was called with; only the process itself changes a state away from `RUNNING`; `fork`
    takes an unused slot whose lock it holds. -/
def Conforms (s : Sys C P) : Action C P → Prop
  | .code c _ _ stack => ∀ f ∈ (s.cur c).frames, ∀ k, k < 256 → stack (f.base + off k) = (s.cur c).stack (f.base + off k)
  | .kernelvec c => ∀ f ∈ (s.cur c).frames, ∀ k l, k < 256 → l < 256 →
      f.base + off k ≠ (s.cpu c).regs .sp + -256 + off l
  | .kernelret c => ∀ f, (s.cur c).frames.head? = some f →
      (s.cpu c).regs .sp = f.base ∧ ∀ r ∈ calleeSaved, (s.cpu c).regs r = f.regs r
  | .usertrapret c _ _ => (s.cur c).frames = []
  | .fork c q => (s.cpu c).run ≠ .proc q ∧ (s.proc q).lock = some c ∧ (s.proc q).state = .unused
  | .release c p => (s.cpu c).run = .proc p → (s.proc p).state = .running
  | .setState c p st => st ≠ .running ∧ ((s.cpu c).run = .proc p ∨ (s.proc p).state ≠ .running)
  | _ => True

def Proc.expected (x : Proc C) (r : Reg) : Word :=
  if r = .a0 ∧ x.trap.call = true ∧ x.phase ≠ .call then x.result
  else
    match x.image with
    | some (_, sp) => if r = .sp ∨ r = .a1 then sp else x.trap.regs r
    | none => x.trap.regs r

def Proc.expectedPc (x : Proc C) : Word :=
  match x.image with
  | some (entry, _) => entry
  | none => if x.trap.call then x.trap.pc + 4 else x.trap.pc

/-- Every processor is in its scheduler. Trapframes and contexts count as the last trap and the last `swtch` of those
    that have made none. -/
structure Start (s : Sys C P) : Prop where
  run : ∀ c, (s.cpu c).run = .scheduler c ∧ (s.cpu c).user = false
  frames : ∀ i, (s.thread i).frames = []
  proc : ∀ p, (s.proc p).phase = .done ∧ (∀ r, (s.proc p).frame (Field.reg r).addr = (s.proc p).expected r) ∧
    (s.proc p).frame Field.epc.addr = (s.proc p).expectedPc
  context : ∀ i, ∀ r ∈ context, s.context (L.context i + off (contextOffset r)) = (s.thread i).saved r

def Reached (s : Sys C P) : Prop := Lib.Reach (Start L) (step L) Conforms s

end Xv6.Trap
