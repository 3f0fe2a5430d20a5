import Xv6.Lib.Reach
import Xv6.Param

/-! The pipes of `kernel/pipe.c`, with `sleep`, `wakeup` and `kill` of `kernel/proc.c`. A round of a loop, of `wakeup`
    too, is one step. -/

namespace Xv6

def PIPESIZE : Nat := 512

instance : NeZero PIPESIZE := ⟨by decide⟩

/-- `struct pipe`, less the lock. -/
structure Pipe where
  data : Fin PIPESIZE → UInt8
  nread : UInt32
  nwrite : UInt32
  readopen : Bool
  writeopen : Bool

namespace Pipe

/-- What `pipealloc` makes of a page. -/
def alloc (data : Fin PIPESIZE → UInt8) : Pipe :=
  { data, nread := 0, nwrite := 0, readopen := true, writeopen := true }

variable (pi : Pipe)

def isEmpty : Prop := pi.nread = pi.nwrite
  deriving Decidable

def isFull : Prop := pi.nwrite = pi.nread + UInt32.ofNat PIPESIZE
  deriving Decidable

def put (ch : UInt8) : Pipe :=
  { pi with data := Function.update pi.data (Fin.ofNat PIPESIZE pi.nwrite.toNat) ch, nwrite := pi.nwrite + 1 }

def next : UInt8 := pi.data (Fin.ofNat PIPESIZE pi.nread.toNat)

def take : Pipe := { pi with nread := pi.nread + 1 }

/-- The end that `pipeclose` closes. -/
def close (writable : Bool) : Pipe :=
  if writable then { pi with writeopen := false } else { pi with readopen := false }

/-! ### Processes -/

inductive Chan where
  | nread | nwrite | other
  deriving DecidableEq, Repr

inductive State where
  | runnable | running | sleeping
  deriving DecidableEq, Repr

/-- A call `pipewrite(pi, addr, n)` that has written `i` bytes. The code does not know of its number. -/
structure Job where
  n : Int
  i : Nat
  id : Nat
  deriving DecidableEq, Repr

inductive Sleeper where
  | writer (job : Job)
  | reader (n : Int)
  deriving DecidableEq, Repr

def Sleeper.chan : Sleeper → Chan
  | .writer _ => .nwrite
  | .reader _ => .nread

inductive After where
  -- `pipewrite` goes to sleep since the pipe is full, or returns
  | full (job : Job)
  | wrote (i : Nat)
  -- `piperead` returns
  | took (i : Nat)
  | closed (writable : Bool)
  deriving DecidableEq, Repr

def After.chan : After → Chan
  | .full _ | .wrote _ | .closed true => .nread
  | .took _ | .closed false => .nwrite

inductive Pc where
  | user
  -- before `acquire(&pi->lock)`, at the entry or back from `sleep`
  | enter (w : Sleeper)
  | closing (writable : Bool)
  -- at the head of the loop of `pipewrite`, of the waiting loop of `piperead`, and of its copying loop
  | writing (job : Job)
  | reading (n : Int)
  | copying (n : Int) (i : Nat)
  -- in `wakeup` at slot `k`
  | wakeup (after : After) (k : Nat)
  -- in `sleep`: before it takes `p->lock` and drops `pi->lock`; after that; and off the CPU
  | nap (w : Sleeper)
  | doze (w : Sleeper)
  | asleep (w : Sleeper)
  deriving DecidableEq, Repr

/-- `struct proc`, as far as pipes go; `ret` is what the last call has returned. -/
structure Proc where
  state : State
  chan : Option Chan
  killed : Bool
  ret : Int
  pc : Pc

namespace Proc

def goto (x : Proc) (pc : Pc) : Proc := { x with pc }

def return_ (x : Proc) (ret : Int) : Proc := { x with ret, pc := .user }

/-- The process holds its own `p->lock` for more than one step. -/
def dozing (x : Proc) : Bool :=
  match x.pc with
  | .doze _ => true
  | _ => false

def sleepOn (x : Proc) (w : Sleeper) : Proc := { x with chan := some w.chan, state := .sleeping, pc := .asleep w }

def wake (x : Proc) (chan : Chan) : Proc :=
  if x.state = .sleeping ∧ x.chan = some chan then { x with state := .runnable } else x

/-- The round of `kill` that finds the process. -/
def killIt (x : Proc) : Proc :=
  { x with killed := true, state := if x.state = .sleeping then .runnable else x.state }

/-- `scheduler` switches to the process; one that was asleep goes on to `acquire(lk)`. -/
def resume (x : Proc) : Proc :=
  { x with state := .running, chan := none, pc := match x.pc with | .asleep w => .enter w | pc => pc }

end Proc

/-- A byte that call `id` has put into the pipe as its `index`-th. -/
structure Byte where
  id : Nat
  index : Nat
  val : UInt8
  deriving DecidableEq, Repr

structure Sys (N : Nat) where
  pipe : Pipe
  lock : Option (Fin N)
  -- the pipe's page has been given back
  freed : Bool
  proc : Fin N → Proc
  -- the calls of `pipewrite`, and the bytes put in and taken out so far; nothing of it is read by the code
  calls : Nat
  ins : List Byte
  outs : List UInt8

inductive Call where
  | write (n : Int)
  | read (n : Int)
  | close (writable : Bool)

inductive Action (N : Nat) where
  | schedule (p : Fin N)
  | yield (p : Fin N)
  | call (p : Fin N) (c : Call)
  -- the next step of the call of `p`; `copy` is the byte that `copyin` brings, or `none` where `copyin` or
  -- `copyout` fails
  | run (p : Fin N) (copy : Option UInt8)
  | kill (p : Fin N)
  -- `p` sleeps elsewhere, is woken there, or exits and leaves its slot to another process
  | sleep (p : Fin N)
  | wake (p : Fin N)
  | reuse (p : Fin N)

inductive Refusal where
  | disabled
  deriving DecidableEq, Repr

namespace Sys
variable {N : Nat} (s : Sys N)

def set (p : Fin N) (x : Proc) : Sys N := { s with proc := Function.update s.proc p x }

def goto (p : Fin N) (pc : Pc) : Sys N := s.set p ((s.proc p).goto pc)

def acquire (p : Fin N) : Sys N := { s with lock := some p }

def release : Sys N := { s with lock := none }

def return_ (p : Fin N) (ret : Int) : Sys N := s.set p ((s.proc p).return_ ret)

def put (job : Job) (ch : UInt8) : Sys N :=
  { s with pipe := s.pipe.put ch, ins := s.ins ++ [⟨job.id, job.i, ch⟩] }

def take : Sys N := { s with pipe := s.pipe.take, outs := s.outs ++ [s.pipe.next] }

def close (writable : Bool) : Sys N := { s with pipe := s.pipe.close writable }

/-- The end of `pipeclose`: the last of the two ends takes the page with it. -/
def giveBack : Sys N := { s with freed := s.freed || (!s.pipe.readopen && !s.pipe.writeopen) }

end Sys

variable {N : Nat}

/-- One round of the loop of `pipewrite`. -/
def writeRound (s : Sys N) (p : Fin N) (copy : Option UInt8) (job : Job) : Sys N :=
  if (job.i : Int) < job.n then
    if s.pipe.readopen = false ∨ (s.proc p).killed then (s.return_ p (-1)).release
    else if s.pipe.isFull then s.goto p (.wakeup (.full job) 0)
    else
      match copy with
      | none => s.goto p (.wakeup (.wrote job.i) 0)
      | some ch => (s.put job ch).goto p (.writing { job with i := job.i + 1 })
  else s.goto p (.wakeup (.wrote job.i) 0)

/-- One round of the waiting loop of `piperead`. -/
def readRound (s : Sys N) (p : Fin N) (n : Int) : Sys N :=
  if s.pipe.isEmpty ∧ s.pipe.writeopen then
    if (s.proc p).killed then (s.return_ p (-1)).release else s.goto p (.nap (.reader n))
  else s.goto p (.copying n 0)

/-- One round of the copying loop of `piperead`: the byte is gone even if `copyout` fails. -/
def copyRound (s : Sys N) (p : Fin N) (copy : Option UInt8) (n : Int) (i : Nat) : Sys N :=
  if (i : Int) < n ∧ ¬ s.pipe.isEmpty then
    if copy.isSome then s.take.goto p (.copying n (i + 1)) else s.take.goto p (.wakeup (.took i) 0)
  else s.goto p (.wakeup (.took i) 0)

def afterWakeup (s : Sys N) (p : Fin N) : After → Sys N
  | .full job => s.goto p (.nap (.writer job))
  | .wrote i | .took i => (s.return_ p i).release
  | .closed _ => (s.return_ p 0).release.giveBack

def runPc (s : Sys N) (p : Fin N) (copy : Option UInt8) : Pc → Except Refusal (Sys N)
  | .enter (.writer job) => if s.lock = none then .ok ((s.acquire p).goto p (.writing job)) else .error .disabled
  | .enter (.reader n) => if s.lock = none then .ok ((s.acquire p).goto p (.reading n)) else .error .disabled
  | .closing writable =>
    if s.lock = none then .ok (((s.acquire p).close writable).goto p (.wakeup (.closed writable) 0))
    else .error .disabled
  | .writing job => .ok (writeRound s p copy job)
  | .reading n => .ok (readRound s p n)
  | .copying n i => .ok (copyRound s p copy n i)
  | .wakeup after k =>
    if h : k < N then
      if k = p.val then .ok (s.goto p (.wakeup after (k + 1)))
      else if (s.proc ⟨k, h⟩).dozing then .error .disabled
      else .ok ((s.set ⟨k, h⟩ ((s.proc ⟨k, h⟩).wake after.chan)).goto p (.wakeup after (k + 1)))
    else .ok (afterWakeup s p after)
  | .nap w => .ok (s.goto p (.doze w)).release
  | .doze w => .ok (s.set p ((s.proc p).sleepOn w))
  | .user | .asleep _ => .error .disabled

def enter (s : Sys N) (p : Fin N) : Call → Sys N
  | .write n => { s.goto p (.enter (.writer ⟨n, 0, s.calls⟩)) with calls := s.calls + 1 }
  | .read n => s.goto p (.enter (.reader n))
  | .close writable => s.goto p (.closing writable)

def step (s : Sys N) : Action N → Except Refusal (Sys N)
  | .schedule p => if (s.proc p).state = .runnable then .ok (s.set p (s.proc p).resume) else .error .disabled
  | .yield p =>
    -- a process that holds a spinlock runs with interrupts off
    if (s.proc p).state = .running ∧ s.lock ≠ some p ∧ (s.proc p).dozing = false then
      .ok (s.set p { s.proc p with state := .runnable })
    else .error .disabled
  | .call p c =>
    if (s.proc p).state = .running ∧ (s.proc p).pc = .user ∧ s.freed = false then .ok (enter s p c)
    else .error .disabled
  | .run p copy =>
    if (s.proc p).state = .running ∧ s.freed = false then runPc s p copy (s.proc p).pc else .error .disabled
  | .kill p => if (s.proc p).dozing then .error .disabled else .ok (s.set p (s.proc p).killIt)
  | .sleep p =>
    if (s.proc p).state = .running ∧ (s.proc p).pc = .user then
      .ok (s.set p { s.proc p with state := .sleeping, chan := some .other })
    else .error .disabled
  | .wake p => if (s.proc p).dozing then .error .disabled else .ok (s.set p ((s.proc p).wake .other))
  | .reuse p =>
    if (s.proc p).pc = .user then
      .ok (s.set p { s.proc p with state := .runnable, chan := none, killed := false, ret := 0 })
    else .error .disabled

/-- After `pipealloc`: nobody is at the pipe. -/
structure Start (s : Sys N) : Prop where
  pipe : ∃ data, s.pipe = alloc data
  lock : s.lock = none
  freed : s.freed = false
  pc : ∀ p, (s.proc p).pc = .user
  chan : ∀ p, (s.proc p).chan ≠ some .nread ∧ (s.proc p).chan ≠ some .nwrite
  calls : s.calls = 0
  ins : s.ins = []
  outs : s.outs = []

def twoProcs : Sys 2 where
  pipe := alloc fun _ => 0
  lock := none
  freed := false
  proc _ := { state := .running, chan := none, killed := false, ret := 0, pc := .user }
  calls := 0
  ins := []
  outs := []

theorem twoProcs_start : Start twoProcs where
  pipe := ⟨_, rfl⟩
  lock := rfl
  freed := rfl
  pc _ := rfl
  chan _ := ⟨nofun, nofun⟩
  calls := rfl
  ins := rfl
  outs := rfl

@[simp] theorem set_self (s : Sys N) (p : Fin N) (x : Proc) : (s.set p x).proc p = x := Function.update_self ..

theorem set_ne (s : Sys N) {p q : Fin N} (x : Proc) (h : q ≠ p) : (s.set p x).proc q = s.proc q :=
  Function.update_of_ne h ..

theorem pc_wake (x : Proc) (c : Chan) : (x.wake c).pc = x.pc := by
  unfold Proc.wake
  split <;> rfl

end Pipe

end Xv6
