import Xv6.Proc.Table

/-! `push_off` and `pop_off` of `kernel/spinlock.c` under `acquire` and `release`, and `sched` and `scheduler` of
    `kernel/proc.c`. `noff` and `intena` belong to a processor, the critical section to a thread. -/

namespace Xv6.Nesting
open ProcTable (State)

variable {C P L : Type}

/-- A spinlock: the `p->lock` of a process, or another one. -/
inductive Lock (P L : Type) where
  | proc (p : P)
  | other (l : L)
  deriving DecidableEq, Repr

/-- Kernel threads: the scheduler of each processor, and that of each process. -/
inductive Tid (C P : Type) where
  | scheduler (c : C)
  | proc (p : P)
  deriving DecidableEq, Repr

inductive Pc (P L : Type) where
  | run
  -- in `push_off`, called by `acquire(lk)` or alone, behind `old = intr_get()`
  | pushing (lk : Option (Lock P L)) (old : Bool)
  | spinning (lk : Lock P L)
  -- in `sched`, off the processor and behind `swtch`, with `intena` in its local variable
  | parked (intena : Bool)
  | resuming (intena : Bool)
  -- `scheduler` has switched to the process in its local variable
  | waiting (p : P)
  -- `allocproc` has set up the context: it will start in `forkret`
  | fresh
  deriving DecidableEq, Repr

structure Thread (P L : Type) where
  pc : Pc P L
  -- where interrupts have been taken
  frames : List (Pc P L)
  -- the locks it holds and the bare `push_off`s it has not undone
  held : List (Lock P L)
  pushes : Nat
  -- the interrupt-enable bit where its outermost `push_off` began
  since : Bool
  -- it has left `forkret`'s critical section
  passed : Bool

/-- `struct cpu` with the interrupt-enable bit, and the thread it runs. -/
structure Cpu (C P : Type) where
  noff : Nat
  intena : Bool
  sie : Bool
  proc : Option P
  run : Tid C P

structure Sys (C P L : Type) where
  cpu : C → Cpu C P
  thread : Tid C P → Thread P L
  -- the processor that holds a lock
  lock : Lock P L → Option C
  state : P → State

def Thread.depth (x : Thread P L) : Nat :=
  x.held.length + x.pushes + match x.pc with | .spinning _ => 1 | _ => 0

def Tid.isProc : Tid C P → Bool
  | .scheduler _ => false
  | .proc _ => true

inductive Panic where
  | popOffInterruptible | popOff
  | schedLock | schedLocks | schedRunning | schedInterruptible
  | acquire | release
  deriving DecidableEq, Repr

inductive Refusal where
  | disabled
  | panic (what : Panic)
  deriving DecidableEq, Repr

inductive Action (C P L : Type) where
  -- `intr_on()` or `intr_off()` outside of critical sections
  | intr (c : C) (on : Bool)
  -- an interrupt is taken, and its handler returns
  | trap (c : C)
  | eret (c : C)
  -- `push_off`, of `acquire(lk)` or alone: its first statement, and the others
  | get (c : C) (lk : Option (Lock P L))
  | off (c : C)
  -- the lock of `acquire` is free
  | take (c : C)
  | release (c : C) (lk : Lock P L)
  | popOff (c : C)
  | setState (c : C) (q : P) (st : State)
  -- `sched` up to `swtch`, and behind it
  | sched (c : C)
  | resume (c : C)
  -- `scheduler` finds the process whose lock it holds runnable and switches to it
  | pick (c : C)
  -- `allocproc` in an unused slot
  | renew (c : C) (q : P)

variable [DecidableEq C] [DecidableEq P] [DecidableEq L]

namespace Sys
variable (s : Sys C P L) (c : C)

def cur : Thread P L := s.thread (s.cpu c).run

def setCpu (x : Cpu C P) : Sys C P L := { s with cpu := Function.update s.cpu c x }

def setThread (i : Tid C P) (x : Thread P L) : Sys C P L := { s with thread := Function.update s.thread i x }

def setCur (x : Thread P L) : Sys C P L := s.setThread (s.cpu c).run x

def setLock (lk : Lock P L) (o : Option C) : Sys C P L := { s with lock := Function.update s.lock lk o }

end Sys

/-- `push_off` behind its first statement. -/
def pushOff (s : Sys C P L) (c : C) (old : Bool) : Sys C P L :=
  let x := s.cpu c
  s.setCpu c { x with sie := false, intena := if x.noff = 0 then old else x.intena, noff := x.noff + 1 }

/-- `pop_off` by the thread `x` of `c`, which goes on as `y`. -/
def popOff (s : Sys C P L) (c : C) (y : Thread P L) : Except Refusal (Sys C P L) :=
  let x := s.cpu c
  if x.sie then .error (.panic .popOffInterruptible)
  else if x.noff < 1 then .error (.panic .popOff)
  else
    let noff := x.noff - 1
    .ok ((s.setCpu c { x with noff, sie := decide (noff = 0) && x.intena }).setCur c
      { y with passed := y.passed || (x.run.isProc && decide (y.depth = 0)) })

/-- `sched` up to `swtch(&p->context, &mycpu()->context)`, and `c->proc = 0` in `scheduler`. -/
def sched (s : Sys C P L) (c : C) : Except Refusal (Sys C P L) :=
  let x := s.cpu c
  match x.proc with
  | none => .error .disabled
  | some p =>
    if s.lock (.proc p) ≠ some c then .error (.panic .schedLock)
    else if x.noff ≠ 1 then .error (.panic .schedLocks)
    else if s.state p = .running then .error (.panic .schedRunning)
    else if x.sie then .error (.panic .schedInterruptible)
    else
      match (s.thread (.scheduler c)).pc with
      | .waiting q =>
        .ok (((s.setThread (.proc p) { s.thread (.proc p) with pc := .parked x.intena, held := [] }).setThread
          (.scheduler c) { s.thread (.scheduler c) with pc := .run, held := [.proc q] }).setCpu c
          { x with proc := none, run := .scheduler c })
      | _ => .error .disabled

/-- `p->state = RUNNING; c->proc = p; swtch(&c->context, &p->context)` -/
def switchTo (s : Sys C P L) (c : C) (p : P) (pc : Pc P L) : Sys C P L :=
  let x := s.cpu c
  { ((s.setThread (.scheduler c) { s.thread (.scheduler c) with pc := .waiting p, held := [] }).setThread
      (.proc p) { s.thread (.proc p) with pc, held := [.proc p] }).setCpu c { x with proc := some p, run := .proc p }
    with state := Function.update s.state p .running }

def step (s : Sys C P L) : Action C P L → Except Refusal (Sys C P L)
  | .intr c on => .ok (s.setCpu c { s.cpu c with sie := on })
  | .trap c =>
    if (s.cpu c).sie then
      .ok ((s.setCpu c { s.cpu c with sie := false }).setCur c
        { s.cur c with pc := .run, frames := (s.cur c).pc :: (s.cur c).frames })
    else .error .disabled
  | .eret c =>
    match (s.cur c).frames with
    | [] => .error .disabled
    | pc :: frames => .ok ((s.setCpu c { s.cpu c with sie := true }).setCur c { s.cur c with pc, frames })
  | .get c lk => .ok (s.setCur c { s.cur c with pc := .pushing lk (s.cpu c).sie })
  | .off c =>
    match (s.cur c).pc with
    | .pushing lk old =>
      let x := { s.cur c with since := if (s.cur c).depth = 0 then old else (s.cur c).since }
      match lk with
      | none => .ok ((pushOff s c old).setCur c { x with pc := .run, pushes := x.pushes + 1 })
      | some lk =>
        if s.lock lk = some c then .error (.panic .acquire)
        else .ok ((pushOff s c old).setCur c { x with pc := .spinning lk })
    | _ => .error .disabled
  | .take c =>
    match (s.cur c).pc with
    | .spinning lk =>
      if s.lock lk = none then
        .ok ((s.setLock lk (some c)).setCur c { s.cur c with pc := .run, held := lk :: (s.cur c).held })
      else .error .disabled
    | _ => .error .disabled
  | .release c lk =>
    if s.lock lk = some c then popOff (s.setLock lk none) c { s.cur c with held := (s.cur c).held.erase lk }
    else .error (.panic .release)
  | .popOff c => popOff s c { s.cur c with pushes := (s.cur c).pushes - 1 }
  | .setState _ q st => .ok { s with state := Function.update s.state q st }
  | .sched c => sched s c
  | .resume c =>
    match (s.cur c).pc with
    | .resuming intena => .ok ((s.setCpu c { s.cpu c with intena }).setCur c { s.cur c with pc := .run })
    | _ => .error .disabled
  | .pick c =>
    match (s.cur c).held with
    | [.proc p] =>
      if s.state p = .runnable then
        match (s.thread (.proc p)).pc with
        | .fresh => .ok (switchTo s c p .run)
        | .parked intena => .ok (switchTo s c p (.resuming intena))
        | _ => .error .disabled
      else .error .disabled
    | _ => .error .disabled
  | .renew _ q =>
    .ok (s.setThread (.proc q)
      { pc := .fresh, frames := [], held := [], pushes := 0, since := false, passed := false })

/-- What threads keep to: balanced calls; `sched` only with just its own `p->lock` held and after a change of state;
    `q->state` changes under `q->lock`, and away from `RUNNING` only by the process itself. -/
def Balanced (s : Sys C P L) : Action C P L → Prop
  | .intr c _ => (s.cur c).pc = .run ∧ (s.cur c).depth = 0
  | .trap _ | .off _ | .take _ | .resume _ => True
  | .eret c => (s.cur c).pc = .run ∧ (s.cur c).depth = 0
  | .get c _ => (s.cur c).pc = .run
  | .release c lk => (s.cur c).pc = .run ∧ lk ∈ (s.cur c).held ∧
      ∀ p, (s.cpu c).run = .proc p → lk = .proc p → s.state p = .running
  | .popOff c => (s.cur c).pc = .run ∧ 0 < (s.cur c).pushes
  | .setState c q st => (s.cur c).pc = .run ∧ .proc q ∈ (s.cur c).held ∧ st ≠ .running ∧
      ((s.cpu c).run = .proc q ∨ s.state q ≠ .running)
  | .sched c => (s.cur c).pc = .run ∧ ∃ p, (s.cpu c).run = .proc p ∧ (s.cur c).held = [.proc p] ∧
      (s.cur c).pushes = 0 ∧ s.state p ≠ .running
  | .pick c => (s.cur c).pc = .run ∧ (s.cpu c).run = .scheduler c ∧ (s.cur c).frames = [] ∧ (s.cur c).pushes = 0
  | .renew c q => (s.cur c).pc = .run ∧ .proc q ∈ (s.cur c).held ∧ (s.cpu c).run ≠ .proc q ∧ s.state q = .unused

/-- All processors at the start of `scheduler`, and no process started. -/
structure Start (s : Sys C P L) : Prop where
  run : ∀ c, (s.cpu c).run = .scheduler c
  noff : ∀ c, (s.cpu c).noff = 0
  scheduler : ∀ c, (s.thread (.scheduler c)).pc = .run ∧ (s.thread (.scheduler c)).frames = [] ∧
    (s.thread (.scheduler c)).held = [] ∧ (s.thread (.scheduler c)).pushes = 0 ∧
    (s.thread (.scheduler c)).passed = false
  proc : ∀ p, (s.thread (.proc p)).pc = .fresh ∧ (s.thread (.proc p)).frames = [] ∧
    (s.thread (.proc p)).held = [] ∧ (s.thread (.proc p)).pushes = 0 ∧ (s.thread (.proc p)).passed = false
  lock : ∀ lk, s.lock lk = none

def Reached (s : Sys C P L) : Prop := Lib.Reach Start step Balanced s

end Xv6.Nesting
