import Mathlib.Data.Fintype.Card
import Xv6.Lib.Reach
import Xv6.Param

/-! The process table of `kernel/proc.c`, interleaved at the critical sections under `wait_lock` and the processes'
    own locks. A loop over the table is one step per slot. -/

namespace Xv6.ProcTable

abbrev Slot := Fin NPROC

inductive State where
  | unused | used | sleeping | runnable | running | zombie
  deriving DecidableEq, Repr

/-- What a process sleeps on: `wait` sleeps on the caller's own `struct proc`. -/
inductive Chan where
  | proc (p : Slot)
  | other (n : Nat)
  deriving DecidableEq, Repr

inductive Pc where
  -- in user space, or in kernel code that does not touch the process table
  | user
  -- `fork`: in `allocproc` at slot `k`, then before and after `np->parent` is set
  | forkScan (k : Nat)
  | forked (np : Slot)
  | parented (np : Slot)
  -- `exit`: before `acquire(&wait_lock)`, in `reparent` at slot `k`, in its `wakeup(initproc)` at slot `j`, in
  -- `wakeup(p->parent)` at slot `j`, and before `acquire(&p->lock)`
  | exitEnter (status : Int)
  | exitReparent (status : Int) (k : Nat)
  | exitWakeInit (status : Int) (k j : Nat)
  | exitWakeParent (status : Int) (j : Nat)
  | exitZombie (status : Int)
  | dead
  -- `wait`: before `acquire(&wait_lock)`, in the scan at slot `k`, before and in `sleep`; `addr` tells
  -- whether the caller wants the status
  | waitEnter (addr : Bool)
  | waitScan (addr : Bool) (k : Nat) (havekids : Bool)
  | waitSleep (addr : Bool)
  | waitAsleep (addr : Bool)
  | kill (pid : Int) (k : Nat)
  -- in `sleep` elsewhere in the kernel
  | asleep
  deriving DecidableEq, Repr

/-- `struct proc`, as far as these functions use it. -/
structure Proc where
  state : State
  chan : Option Chan
  killed : Bool
  xstate : Int
  pid : Int
  parent : Option Slot
  pc : Pc

inductive Event where
  | exited (pid status : Int)
  -- `wait` by `waiter` has returned `pid` and, if `addr` was given, copied out `copied`; `parent` is the
  -- child's parent then
  | reaped (waiter : Slot) (parent : Option Slot) (pid : Int) (addr : Bool) (copied : Option Int)
  -- `wait` by `waiter` has returned -1 for lack of children, when the parents were `parents`
  | childless (waiter : Slot) (parents : Slot → Option Slot)

structure Sys where
  proc : Slot → Proc
  initproc : Slot
  waitLock : Option Slot
  nextpid : Int
  -- the calls of `allocpid` and the events so far; nothing of it is read by the code
  calls : Nat
  hist : List Event

inductive Call where
  | fork
  | exit (status : Int)
  | wait (addr : Bool)
  | kill (pid : Int)
  | sleep (n : Nat)
  | fault

inductive Action where
  | schedule (p : Slot)
  | yield (p : Slot)
  | call (p : Slot) (c : Call)
  -- the next step of the system call of `p`; `mem` tells whether its memory allocation or `copyout` succeeds
  | run (p : Slot) (mem : Bool)
  -- `wakeup` elsewhere in the kernel, at the slot of `p`
  | wakeup (n : Nat) (p : Slot)

inductive Refusal where
  | disabled
  -- `panic("init exiting")`
  | initExiting
  deriving DecidableEq, Repr

/-- `nextpid + 1` on a C `int`. -/
def incInt (x : Int) : Int := if x = 2 ^ 31 - 1 then -2 ^ 31 else x + 1

namespace Proc

def goto (x : Proc) (pc : Pc) : Proc := { x with pc }

def freeproc (x : Proc) : Proc :=
  { x with pid := 0, parent := none, chan := none, killed := false, xstate := 0, state := .unused }

/-- `allocproc` after it has found the slot. What else the slot holds stays. -/
def alloc (x : Proc) (pid : Int) : Proc := { x with pid, state := .used, pc := .user }

def setParent (x : Proc) (parent : Slot) : Proc := { x with parent := some parent }

def setState (x : Proc) (state : State) : Proc := { x with state }

def wake (x : Proc) (chan : Option Chan) : Proc :=
  if x.state = .sleeping ∧ x.chan = chan then { x with state := .runnable } else x

def sleepOn (x : Proc) (chan : Chan) (pc : Pc) : Proc := { x with chan := some chan, state := .sleeping, pc }

/-- `scheduler` switches to the process; one that was asleep clears its channel and goes on. -/
def resume (x : Proc) : Proc :=
  match x.pc with
  | .waitAsleep addr => { x with state := .running, chan := none, pc := .waitEnter addr }
  | .asleep => { x with state := .running, chan := none, pc := .user }
  | _ => { x with state := .running }

def die (x : Proc) (status : Int) : Proc := { x with xstate := status, state := .zombie, pc := .dead }

def killIt (x : Proc) : Proc :=
  { x with killed := true, state := if x.state = .sleeping then .runnable else x.state }

end Proc

namespace Sys
variable (s : Sys)

def set (i : Slot) (x : Proc) : Sys := { s with proc := Function.update s.proc i x }

def goto (p : Slot) (pc : Pc) : Sys := s.set p ((s.proc p).goto pc)

def acquire (p : Slot) : Sys := { s with waitLock := some p }

def release : Sys := { s with waitLock := none }

def record (e : Event) : Sys := { s with hist := s.hist ++ [e] }

def allocpid : Sys := { s with nextpid := incInt s.nextpid, calls := s.calls + 1 }

/-- One round of `wakeup(chan)` by `p` at slot `j`. -/
def wakeup (p j : Slot) (chan : Option Chan) : Sys := if j = p then s else s.set j ((s.proc j).wake chan)

end Sys

def runPc (s : Sys) (p : Slot) (mem : Bool) : Pc → Except Refusal Sys
  | .forkScan k =>
    if h : k < NPROC then
      if (s.proc ⟨k, h⟩).state = .unused then
        if mem then
          .ok ((s.allocpid.set ⟨k, h⟩ ((s.proc ⟨k, h⟩).alloc s.nextpid)).goto p (.forked ⟨k, h⟩))
        else
          -- no memory: `freeproc` at once, and the pid is lost
          .ok ((s.allocpid.set ⟨k, h⟩ (s.proc ⟨k, h⟩).freeproc).goto p .user)
      else .ok (s.goto p (.forkScan (k + 1)))
    else .ok (s.goto p .user)
  | .forked np =>
    if s.waitLock = none then .ok ((s.set np ((s.proc np).setParent p)).goto p (.parented np))
    else .error .disabled
  | .parented np => .ok ((s.set np ((s.proc np).setState .runnable)).goto p .user)
  | .exitEnter status =>
    if s.waitLock = none then .ok ((s.acquire p).goto p (.exitReparent status 0)) else .error .disabled
  | .exitReparent status k =>
    if h : k < NPROC then
      if (s.proc ⟨k, h⟩).parent = some p then
        .ok ((s.set ⟨k, h⟩ ((s.proc ⟨k, h⟩).setParent s.initproc)).goto p (.exitWakeInit status k 0))
      else .ok (s.goto p (.exitReparent status (k + 1)))
    else .ok (s.goto p (.exitWakeParent status 0))
  | .exitWakeInit status k j =>
    if h : j < NPROC then
      .ok ((s.wakeup p ⟨j, h⟩ (some (.proc s.initproc))).goto p (.exitWakeInit status k (j + 1)))
    else .ok (s.goto p (.exitReparent status (k + 1)))
  | .exitWakeParent status j =>
    if h : j < NPROC then
      .ok ((s.wakeup p ⟨j, h⟩ ((s.proc p).parent.map .proc)).goto p (.exitWakeParent status (j + 1)))
    else .ok (s.goto p (.exitZombie status))
  | .exitZombie status =>
    .ok ((s.set p ((s.proc p).die status)).release.record (.exited (s.proc p).pid status))
  | .waitEnter addr =>
    if s.waitLock = none then .ok ((s.acquire p).goto p (.waitScan addr 0 false)) else .error .disabled
  | .waitScan addr k havekids =>
    if h : k < NPROC then
      if (s.proc ⟨k, h⟩).parent = some p then
        if (s.proc ⟨k, h⟩).state = .zombie then
          -- `copyout` fails: the child stays
          if addr && !mem then .ok (s.goto p .user).release
          else
            .ok (((s.set ⟨k, h⟩ (s.proc ⟨k, h⟩).freeproc).goto p .user).release.record
              (.reaped p (s.proc ⟨k, h⟩).parent (s.proc ⟨k, h⟩).pid addr
                (if addr then some (s.proc ⟨k, h⟩).xstate else none)))
        else .ok (s.goto p (.waitScan addr (k + 1) true))
      else .ok (s.goto p (.waitScan addr (k + 1) havekids))
    else if havekids = false then
      .ok ((s.goto p .user).release.record (.childless p fun q => (s.proc q).parent))
    else if (s.proc p).killed then .ok (s.goto p .user).release
    else .ok (s.goto p (.waitSleep addr))
  | .waitSleep addr => .ok (s.set p ((s.proc p).sleepOn (.proc p) (.waitAsleep addr))).release
  | .kill pid k =>
    if h : k < NPROC then
      if (s.proc ⟨k, h⟩).pid = pid then .ok ((s.set ⟨k, h⟩ (s.proc ⟨k, h⟩).killIt).goto p .user)
      else .ok (s.goto p (.kill pid (k + 1)))
    else .ok (s.goto p .user)
  | _ => .error .disabled

/-- Process `p` enters a system call, up to the first lock. -/
def enter (s : Sys) (p : Slot) : Call → Except Refusal Sys
  | .fork => .ok (s.goto p (.forkScan 0))
  | .exit status => if p = s.initproc then .error .initExiting else .ok (s.goto p (.exitEnter status))
  | .wait addr => .ok (s.goto p (.waitEnter addr))
  | .kill pid => .ok (s.goto p (.kill pid 0))
  | .sleep n => .ok (s.set p ((s.proc p).sleepOn (.other n) .asleep))
  | .fault => .ok (s.set p { s.proc p with killed := true })

def step (s : Sys) : Action → Except Refusal Sys
  | .schedule p => if (s.proc p).state = .runnable then .ok (s.set p (s.proc p).resume) else .error .disabled
  | .yield p =>
    -- a process that holds `wait_lock` runs with interrupts off
    if (s.proc p).state = .running ∧ s.waitLock ≠ some p then .ok (s.set p ((s.proc p).setState .runnable))
    else .error .disabled
  | .call p c => if (s.proc p).state = .running ∧ (s.proc p).pc = .user then enter s p c else .error .disabled
  | .run p mem => if (s.proc p).state = .running then runPc s p mem (s.proc p).pc else .error .disabled
  | .wakeup n p => .ok (s.set p ((s.proc p).wake (some (.other n))))

/-- After `userinit`: one process, with pid 1. -/
structure Init (s : Sys) : Prop where
  initState : (s.proc s.initproc).state = .runnable
  initPid : (s.proc s.initproc).pid = 1
  unused : ∀ i, i ≠ s.initproc → (s.proc i).state = .unused
  parent : ∀ i, (s.proc i).parent = none
  pc : ∀ i, (s.proc i).pc = .user
  waitLock : s.waitLock = none
  nextpid : s.nextpid = 2
  calls : s.calls = 1
  hist : s.hist = []

end Xv6.ProcTable
