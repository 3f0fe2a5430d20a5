import Xv6.Pipe.Basic
import Xv6.Proc.Table

/-! The waits that `kill` can interrupt: the loops of `piperead`, `pipewrite`, `wait`, `consoleread` and `sys_sleep`.
    A section under `p->lock` is one step, and so is what a round does under the lock of its condition before and
    after. -/

namespace Xv6.Interruptible
open ProcTable (Slot State)

/-- The locks of the conditions. -/
inductive Lock (K : Type) where
  | pipe (pi : K) | wait | cons | ticks
  deriving DecidableEq, Repr

inductive Chan (K : Type) where
  | nread (pi : K) | nwrite (pi : K) | proc (p : Slot) | cons | ticks
  deriving DecidableEq, Repr

/-- A loop with the local variables of its function. -/
inductive Loop (K : Type) where
  | piperead (pi : K) (n : Int)
  | pipewrite (pi : K) (i n : Int)
  | wait
  | consoleread (target n : Int)
  | sleep (ticks0 n : UInt32)
  deriving DecidableEq, Repr

namespace Loop
variable {K : Type}

def lock : Loop K → Lock K
  | .piperead pi _ | .pipewrite pi _ _ => .pipe pi
  | .wait => .wait
  | .consoleread _ _ => .cons
  | .sleep _ _ => .ticks

def chan (p : Slot) : Loop K → Chan K
  | .piperead pi _ => .nread pi
  | .pipewrite pi _ _ => .nwrite pi
  | .wait => .proc p
  | .consoleread _ _ => .cons
  | .sleep _ _ => .ticks

end Loop

inductive Pc (K : Type) where
  -- in user space, or in kernel code outside these loops
  | user
  -- at the head of the loop, before `killed(p)`, and behind it before `sleep` takes `p->lock`
  | top (l : Loop K)
  | check (l : Loop K)
  | nap (l : Loop K)
  -- in `sleep`, up to its `acquire(lk)`
  | asleep (l : Loop K)
  deriving DecidableEq, Repr

/-- `struct proc`, as far as these functions use it. -/
structure Proc (K : Type) where
  state : State
  chan : Option (Chan K)
  killed : Bool
  pid : Int
  parent : Option Slot
  pc : Pc K

def INPUT_BUF_SIZE : Nat := 128

instance : NeZero INPUT_BUF_SIZE := ⟨by decide⟩

structure Cons where
  buf : Fin INPUT_BUF_SIZE → UInt8
  r : UInt32
  w : UInt32

def ctrlD : UInt8 := 4

def newline : UInt8 := 10

structure Sys (K : Type) where
  proc : Slot → Proc K
  -- the process that holds the lock
  lock : Lock K → Option Slot
  pipe : K → Pipe
  cons : Cons
  ticks : UInt32
  initproc : Slot

inductive Call (K : Type) where
  | piperead (pi : K) (n : Int)
  | pipewrite (pi : K) (n : Int)
  | wait
  | consoleread (n : Int)
  | sleep (n : Int)

inductive Action (K : Type) where
  | schedule (p : Slot)
  | yield (p : Slot)
  -- up to the first round of the loop, `acquire` included
  | call (p : Slot) (c : Call K)
  -- the next step of `p` in its loop; `ch` is the byte that `copyin` finds, `copies` the number of copies from or
  -- to user memory that succeed in this step
  | run (p : Slot) (ch : UInt8) (copies : Nat)
  -- `wakeup(chan)` at the slot of `q`
  | wakeup (chan : Chan K) (q : Slot)
  -- `kill(pid)`, called by `p`, at the slot of `q`
  | kill (p : Slot) (pid : Int) (q : Slot)
  | fault (p : Slot)
  | fork (p np : Slot) (pid : Int)
  | exit (p : Slot)
  | pipeclose (p : Slot) (pi : K) (writable : Bool)
  -- `consoleintr` has put a line together
  | consoleintr (buf : Fin INPUT_BUF_SIZE → UInt8) (w : UInt32)
  | clockintr

inductive Refusal where
  | disabled
  deriving DecidableEq, Repr

variable {K : Type} [DecidableEq K]

namespace Sys

def setProc (s : Sys K) (p : Slot) (x : Proc K) : Sys K := { s with proc := Function.update s.proc p x }

def setLock (s : Sys K) (l : Lock K) (h : Option Slot) : Sys K := { s with lock := Function.update s.lock l h }

def setPipe (s : Sys K) (pi : K) (x : Pipe) : Sys K := { s with pipe := Function.update s.pipe pi x }

def goto (s : Sys K) (p : Slot) (pc : Pc K) : Sys K := s.setProc p { s.proc p with pc }

def leave (s : Sys K) (p : Slot) (l : Loop K) : Sys K := (s.setLock l.lock none).goto p .user

/-- The copying loop of `piperead`, `n` rounds of it, of whose copies the first `copies` succeed. -/
def drain (x : Pipe) : Nat → Nat → Pipe
  | 0, _ => x
  | n + 1, copies =>
    if x.isEmpty then x
    else match copies with
      | 0 => x.take
      | copies + 1 => drain x.take n copies

/-- `wait` scans the table under `wait_lock`: a child to reap, if any. -/
def zombie (s : Sys K) (p : Slot) : Option Slot :=
  (List.finRange NPROC).find? fun q => (s.proc q).parent = some p && (s.proc q).state = .zombie

def havekids (s : Sys K) (p : Slot) : Bool := (List.finRange NPROC).any fun q => (s.proc q).parent = some p

/-- `freeproc`, less the memory. -/
def freeproc (s : Sys K) (q : Slot) : Sys K :=
  s.setProc q { s.proc q with state := .unused, chan := none, killed := false, pid := 0, parent := none }

def nextChar (s : Sys K) : UInt8 := s.cons.buf (Fin.ofNat INPUT_BUF_SIZE s.cons.r.toNat)

def advance (s : Sys K) : Sys K := { s with cons := { s.cons with r := s.cons.r + 1 } }

/-- A character is taken from `cons.buf`. An end-of-file behind other characters is left there. -/
def readChar (s : Sys K) (p : Slot) (target n : Int) (copies : Nat) : Sys K :=
  if s.nextChar = ctrlD then (if n < target then s else s.advance).leave p (.consoleread target n)
  else if copies = 0 then s.advance.leave p (.consoleread target n)
  else if s.nextChar = newline then s.advance.leave p (.consoleread target (n - 1))
  else s.advance.goto p (.top (.consoleread target (n - 1)))

/-- The head of a loop: whether there is a reason to wait, and what the call does if there is none. -/
def top (s : Sys K) (p : Slot) (l : Loop K) (copies : Nat) : Sys K :=
  match l with
  | .piperead pi n =>
    if (s.pipe pi).isEmpty ∧ (s.pipe pi).writeopen then s.goto p (.check l)
    else (s.setPipe pi (drain (s.pipe pi) n.toNat copies)).leave p l
  | .pipewrite pi i n =>
    if i < n ∧ (s.pipe pi).readopen then s.goto p (.check l) else s.leave p l
  | .wait =>
    match s.zombie p with
    | some q => (if copies = 0 then s else s.freeproc q).leave p l
    | none => if s.havekids p then s.goto p (.check l) else s.leave p l
  | .consoleread target n =>
    if n ≤ 0 then s.leave p l
    else if s.cons.r = s.cons.w then s.goto p (.check l)
    else s.readChar p target n copies
  | .sleep ticks0 n =>
    if s.ticks - ticks0 < n then s.goto p (.check l) else s.leave p l

/-- Behind `killed(p)` when it has returned 0. Only `pipewrite` has more to test before it sleeps. -/
def alive (s : Sys K) (p : Slot) (l : Loop K) (ch : UInt8) (copies : Nat) : Sys K :=
  match l with
  | .pipewrite pi i n =>
    if (s.pipe pi).isFull then s.goto p (.nap l)
    else if copies = 0 then s.leave p l
    else (s.setPipe pi ((s.pipe pi).put ch)).goto p (.top (.pipewrite pi (i + 1) n))
  | _ => s.goto p (.nap l)

def check (s : Sys K) (p : Slot) (l : Loop K) (ch : UInt8) (copies : Nat) : Sys K :=
  if (s.proc p).killed then s.leave p l else s.alive p l ch copies

/-- `sleep`, from `acquire(&p->lock)` to the scheduler's release of it. -/
def sleep (s : Sys K) (p : Slot) (l : Loop K) : Sys K :=
  (s.setLock l.lock none).setProc p
    { s.proc p with chan := some (l.chan p), state := .sleeping, pc := .asleep l }

def reacquire (s : Sys K) (p : Slot) (l : Loop K) : Except Refusal (Sys K) :=
  if s.lock l.lock = none then
    .ok ((s.setLock l.lock (some p)).setProc p { s.proc p with chan := none, pc := .top l })
  else .error .disabled

def run (s : Sys K) (p : Slot) (ch : UInt8) (copies : Nat) : Except Refusal (Sys K) :=
  if (s.proc p).state = .running then
    match (s.proc p).pc with
    | .user => .error .disabled
    | .top l => .ok (s.top p l copies)
    | .check l => .ok (s.check p l ch copies)
    | .nap l => .ok (s.sleep p l)
    | .asleep l => s.reacquire p l
  else .error .disabled

def loop (s : Sys K) : Call K → Loop K
  | .piperead pi n => .piperead pi n
  | .pipewrite pi n => .pipewrite pi 0 n
  | .wait => .wait
  | .consoleread n => .consoleread n n
  | .sleep n => .sleep s.ticks (UInt32.ofNat n.toNat)

def free (s : Sys K) (p : Slot) : Bool := (s.proc p).state = .running && (s.proc p).pc = .user

def call (s : Sys K) (p : Slot) (c : Call K) : Except Refusal (Sys K) :=
  if s.free p ∧ s.lock (s.loop c).lock = none then
    .ok ((s.setLock (s.loop c).lock (some p)).goto p (.top (s.loop c)))
  else .error .disabled

def schedule (s : Sys K) (p : Slot) : Except Refusal (Sys K) :=
  if (s.proc p).state = .runnable then .ok (s.setProc p { s.proc p with state := .running })
  else .error .disabled

def preemptible : Pc K → Bool
  | .user | .asleep _ => true
  | _ => false

def yield (s : Sys K) (p : Slot) : Except Refusal (Sys K) :=
  if (s.proc p).state = .running ∧ preemptible (s.proc p).pc then
    .ok (s.setProc p { s.proc p with state := .runnable })
  else .error .disabled

def wakeup (s : Sys K) (chan : Chan K) (q : Slot) : Sys K :=
  if (s.proc q).state = .sleeping ∧ (s.proc q).chan = some chan then
    s.setProc q { s.proc q with state := .runnable }
  else s

def kill (s : Sys K) (p : Slot) (pid : Int) (q : Slot) : Except Refusal (Sys K) :=
  if s.free p then
    if (s.proc q).pid = pid then
      .ok (s.setProc q { s.proc q with
        killed := true, state := if (s.proc q).state = .sleeping then .runnable else (s.proc q).state })
    else .ok s
  else .error .disabled

def fault (s : Sys K) (p : Slot) : Except Refusal (Sys K) :=
  if s.free p then .ok (s.setProc p { s.proc p with killed := true }) else .error .disabled

/-- `allocproc` leaves the flag as it finds it. -/
def fork (s : Sys K) (p np : Slot) (pid : Int) : Except Refusal (Sys K) :=
  if s.free p ∧ (s.proc np).state = .unused ∧ s.lock .wait = none then
    .ok (s.setProc np { s.proc np with pid, parent := some p, state := .runnable, pc := .user })
  else .error .disabled

/-- `exit` under `wait_lock`; its `wakeup`s are steps of their own. -/
def exit (s : Sys K) (p : Slot) : Except Refusal (Sys K) :=
  if s.free p ∧ p ≠ s.initproc ∧ s.lock .wait = none then
    let t : Sys K := { s with proc := fun q =>
      if (s.proc q).parent = some p then { s.proc q with parent := some s.initproc } else s.proc q }
    .ok (t.setProc p { t.proc p with state := .zombie })
  else .error .disabled

def pipeclose (s : Sys K) (p : Slot) (pi : K) (writable : Bool) : Except Refusal (Sys K) :=
  if s.free p ∧ s.lock (.pipe pi) = none then .ok (s.setPipe pi ((s.pipe pi).close writable))
  else .error .disabled

def consoleintr (s : Sys K) (buf : Fin INPUT_BUF_SIZE → UInt8) (w : UInt32) : Except Refusal (Sys K) :=
  if s.lock .cons = none then .ok { s with cons := { s.cons with buf, w } } else .error .disabled

def clockintr (s : Sys K) : Except Refusal (Sys K) :=
  if s.lock .ticks = none then .ok { s with ticks := s.ticks + 1 } else .error .disabled

end Sys

def step (s : Sys K) : Action K → Except Refusal (Sys K)
  | .schedule p => s.schedule p
  | .yield p => s.yield p
  | .call p c => s.call p c
  | .run p ch copies => s.run p ch copies
  | .wakeup chan q => .ok (s.wakeup chan q)
  | .kill p pid q => s.kill p pid q
  | .fault p => s.fault p
  | .fork p np pid => s.fork p np pid
  | .exit p => s.exit p
  | .pipeclose p pi writable => s.pipeclose p pi writable
  | .consoleintr buf w => s.consoleintr buf w
  | .clockintr => s.clockintr

structure Init (s : Sys K) : Prop where
  pc : ∀ p, (s.proc p).pc = .user
  lock : ∀ l, s.lock l = none

def Waits (x : Proc K) (l : Loop K) : Prop := x.state = .sleeping ∧ x.pc = .asleep l

/-! ### The window -/

def Pc.inWindow : Pc K → Bool
  | .nap _ => true
  | _ => false

/-- The step does not kill a process between its `killed(p)` and its `sleep`. -/
def misses (s : Sys K) : Action K → Bool
  | .kill _ pid q => !((s.proc q).pid = pid && (s.proc q).pc.inWindow)
  | _ => true

def Alert (x : Proc K) : Prop := x.killed = true → x.pc.inWindow = false ∧ ∀ l, ¬ Waits x l

omit [DecidableEq K] in
theorem Alert.of_pc {x : Proc K} (hnap : x.pc.inWindow = false) (hpc : ∀ l, x.pc ≠ .asleep l) : Alert x :=
  fun _ => ⟨hnap, fun l hl => hpc l hl.2⟩

omit [DecidableEq K] in
theorem Alert.of_alive {x : Proc K} (hk : x.killed = false) : Alert x := fun h => by
  rw [hk] at h
  cases h

omit [DecidableEq K] in
theorem Alert.awake {x y : Proc K} (h : Alert x) (hk : y.killed = x.killed) (hpc : y.pc = x.pc)
    (hs : y.state ≠ .sleeping) : Alert y := fun hy => by
  refine ⟨?_, fun l hl => hs hl.1⟩
  rw [hpc]
  exact (h (hk ▸ hy)).1

def AllAlert (s : Sys K) : Prop := ∀ q, Alert (s.proc q)

namespace AllAlert
variable {s t : Sys K} {p q : Slot} {l : Loop K}

omit [DecidableEq K] in
theorem setProc (h : AllAlert s) {x : Proc K} (hx : Alert x) : AllAlert (s.setProc p x) := by
  intro q
  by_cases hq : q = p
  · subst hq
    simpa only [Sys.setProc, Function.update_self] using hx
  · simpa only [Sys.setProc, Function.update_of_ne hq] using h q

omit [DecidableEq K] in
theorem goto (h : AllAlert s) {pc : Pc K} (hnap : pc.inWindow = false) (hpc : ∀ l, pc ≠ .asleep l) :
    AllAlert (s.goto p pc) := h.setProc (.of_pc hnap hpc)

theorem leave (h : AllAlert s) : AllAlert (s.leave p l) :=
  AllAlert.goto (s := s.setLock l.lock none) h rfl (by simp)

omit [DecidableEq K] in
theorem freeproc (h : AllAlert s) : AllAlert (s.freeproc q) := h.setProc (.of_alive rfl)

theorem readChar (h : AllAlert s) {target n : Int} {copies : Nat} : AllAlert (s.readChar p target n copies) := by
  have ht : AllAlert s.advance := h
  unfold Sys.readChar
  split
  · split
    · exact h.leave
    · exact ht.leave
  split
  · exact ht.leave
  split
  · exact ht.leave
  · exact ht.goto rfl (by simp)

theorem top (h : AllAlert s) {copies : Nat} : AllAlert (s.top p l copies) := by
  unfold Sys.top
  split
  · split
    · exact h.goto rfl (by simp)
    · exact AllAlert.leave (s := s.setPipe _ _) h
  · split
    · exact h.goto rfl (by simp)
    · exact h.leave
  · split
    · split
      · exact h.leave
      · exact h.freeproc.leave
    · split
      · exact h.goto rfl (by simp)
      · exact h.leave
  · split
    · exact h.leave
    split
    · exact h.goto rfl (by simp)
    · exact h.readChar
  · split
    · exact h.goto rfl (by simp)
    · exact h.leave

theorem check (h : AllAlert s) {ch : UInt8} {copies : Nat} : AllAlert (s.check p l ch copies) := by
  unfold Sys.check
  split
  · exact h.leave
  rename_i hk
  -- the process enters the window only with its flag clear
  have hnap : AllAlert (s.goto p (.nap l)) := h.setProc (.of_alive (by simpa using hk))
  unfold Sys.alive
  split
  · split
    · exact hnap
    split
    · exact h.leave
    · exact AllAlert.goto (s := s.setPipe _ _) h rfl (by simp)
  · exact hnap

theorem sleep (h : AllAlert s) (hpc : (s.proc p).pc = .nap l) : AllAlert (s.sleep p l) := by
  refine AllAlert.setProc (s := s.setLock l.lock none) h (.of_alive ?_)
  by_contra hk
  have hnap := (h p (by simpa using hk)).1
  rw [hpc] at hnap
  cases hnap

theorem run (h : AllAlert s) {ch : UInt8} {copies : Nat} (hs : s.run p ch copies = .ok t) : AllAlert t := by
  unfold Sys.run at hs
  split at hs
  · split at hs
    · cases hs
    · cases hs
      exact h.top
    · cases hs
      exact h.check
    · rename_i hpc
      cases hs
      exact h.sleep hpc
    · unfold Sys.reacquire at hs
      split at hs
      · cases hs
        exact AllAlert.setProc (s := s.setLock _ _) h (.of_pc rfl (by simp))
      · cases hs
  · cases hs

theorem kill (h : AllAlert s) {pid : Int} (hm : misses s (.kill p pid q) = true) (hs : s.kill p pid q = .ok t) :
    AllAlert t := by
  unfold Sys.kill at hs
  split at hs
  · split at hs
    · rename_i hpid
      cases hs
      refine h.setProc fun _ => ⟨?_, fun l hl => ?_⟩
      · simpa [misses, hpid] using hm
      · -- whoever was asleep is made runnable
        have := hl.1
        simp only at this
        split at this
        · cases this
        · rename_i hns
          exact hns this
    · cases hs
      exact h
  · cases hs

theorem exit (h : AllAlert s) (hs : s.exit p = .ok t) : AllAlert t := by
  unfold Sys.exit at hs
  split at hs
  · cases hs
    have hp : AllAlert { s with proc := fun q =>
        if (s.proc q).parent = some p then { s.proc q with parent := some s.initproc } else s.proc q } := by
      intro q
      change Alert (if (s.proc q).parent = some p then _ else _)
      split
      · exact h q
      · exact h q
    exact hp.setProc ((hp p).awake rfl rfl (by simp))
  · cases hs

theorem step (h : AllAlert s) {a : Action K} (hm : misses s a = true) (hs : Interruptible.step s a = .ok t) :
    AllAlert t := by
  cases a with
  | schedule p =>
    simp only [Interruptible.step, Sys.schedule] at hs
    split at hs <;> cases hs
    exact h.setProc ((h p).awake rfl rfl (by simp))
  | yield p =>
    simp only [Interruptible.step, Sys.yield] at hs
    split at hs <;> cases hs
    exact h.setProc ((h p).awake rfl rfl (by simp))
  | call p c =>
    simp only [Interruptible.step, Sys.call] at hs
    split at hs <;> cases hs
    exact AllAlert.goto (s := s.setLock _ _) h rfl (by simp)
  | run p ch copies => exact h.run hs
  | wakeup chan q =>
    simp only [Interruptible.step, Sys.wakeup, Except.ok.injEq] at hs
    subst hs
    split
    · exact h.setProc ((h q).awake rfl rfl (by simp))
    · exact h
  | kill p pid q => exact h.kill hm hs
  | fault p =>
    simp only [Interruptible.step, Sys.fault] at hs
    split at hs <;> cases hs
    rename_i hf
    have hpc : (s.proc p).pc = .user := by
      simp only [Sys.free, Bool.and_eq_true, decide_eq_true_eq] at hf
      exact hf.2
    exact h.setProc (.of_pc (by simp [hpc, Pc.inWindow]) (by simp [hpc]))
  | fork p np pid =>
    simp only [Interruptible.step, Sys.fork] at hs
    split at hs <;> cases hs
    exact h.setProc (.of_pc rfl (by simp))
  | exit p => exact h.exit hs
  | pipeclose p pi writable =>
    simp only [Interruptible.step, Sys.pipeclose] at hs
    split at hs <;> cases hs
    exact h
  | consoleintr buf w =>
    simp only [Interruptible.step, Sys.consoleintr] at hs
    split at hs <;> cases hs
    exact h
  | clockintr =>
    simp only [Interruptible.step, Sys.clockintr] at hs
    split at hs <;> cases hs
    exact h

end AllAlert

omit [DecidableEq K] in
theorem Init.alert {s : Sys K} (h : Init s) : AllAlert s := fun q =>
  .of_pc (by rw [h.pc q]; rfl) (by simp [h.pc q])

theorem Sys.run_nap {s t : Sys K} {p : Slot} {l : Loop K} {ch : UInt8} {copies : Nat} (hpc : (s.proc p).pc = .nap l)
    (h : s.run p ch copies = .ok t) : t = s.sleep p l := by
  unfold Sys.run at h
  split at h
  · simp only [hpc, Except.ok.injEq] at h
    exact h.symm
  · cases h

theorem kill_in_window {s t u : Sys K} {p q : Slot} {l : Loop K} {pid : Int} {ch : UInt8} {copies : Nat}
    (hpid : (s.proc q).pid = pid) (hpc : (s.proc q).pc = .nap l) (hk : step s (.kill p pid q) = .ok t)
    (hr : step t (.run q ch copies) = .ok u) : Waits (u.proc q) l ∧ (u.proc q).killed = true := by
  simp only [step, Sys.kill, hpid, if_pos] at hk
  split at hk <;> cases hk
  rw [Sys.run_nap (l := l) (by simp [Sys.setProc, hpc]) hr]
  simp [Sys.sleep, Sys.setProc, Sys.setLock, Waits]

/-- As long as no `kill` finds its process between `killed(p)` and `sleep`, nobody sleeps in one of the loops with its
    flag set. -/
theorem no_lost_kill {s : Sys K} (h : Lib.Reach Init step (fun s a => misses s a = true) s) :
    (∀ p l, Waits (s.proc p) l → (s.proc p).killed = false) ∧
    ∀ p q l pid t u ch copies, (s.proc q).pid = pid → (s.proc q).pc = .nap l →
      step s (.kill p pid q) = .ok t → step t (.run q ch copies) = .ok u →
      Waits (u.proc q) l ∧ (u.proc q).killed = true := by
  have hall : AllAlert s := h.invariant (fun _ => Init.alert) (fun _ _ _ hall hm hs => hall.step hm hs)
  refine ⟨fun p l hw => ?_, fun p q l pid t u ch copies hpid hpc hk hr => kill_in_window hpid hpc hk hr⟩
  by_contra hk
  exact (hall p (by simpa using hk)).2 l hw

def killer : Slot := ⟨0, zero_lt_NPROC⟩
def victim : Slot := ⟨1, one_lt_NPROC⟩
def kid : Slot := ⟨2, by decide⟩

def start : Sys Bool where
  proc := fun p =>
    { state := if p = killer ∨ p = victim then .running else if p = kid then .runnable else .unused
      chan := none, killed := false, pid := if p.val < 3 then p.val + 1 else 0
      parent := if p = victim then some killer else if p = kid then some victim else none
      pc := .user }
  lock := fun _ => none
  pipe := fun full =>
    { data := fun _ => 0, nread := 0, nwrite := if full then UInt32.ofNat PIPESIZE else 0
      readopen := true, writeopen := true }
  cons := { buf := fun _ => 0, r := 0, w := 0 }
  ticks := 0
  initproc := killer

theorem init_start : Init start := ⟨fun _ => rfl, fun _ => rfl⟩

def slip (c : Call Bool) : List (Action Bool) :=
  [.call victim c, .run victim 0 0, .run victim 0 0, .kill killer 2 victim, .run victim 0 0]

def Lost (l : Loop Bool) : Prop :=
  ∃ s : Sys Bool, Lib.Reach Init step (fun _ _ => True) s ∧ Waits (s.proc victim) l ∧ (s.proc victim).killed = true

theorem lost_of_slip {c : Call Bool} {l : Loop Bool}
    (h : (Lib.run step (fun _ _ => true) start (slip c)).any (fun s =>
      decide ((s.proc victim).state = .sleeping ∧ (s.proc victim).pc = .asleep l) && (s.proc victim).killed) = true) :
    Lost l := by
  obtain ⟨s, hs, hat⟩ := (Option.any_eq_true _ _).mp h
  obtain ⟨hw, hk⟩ := Bool.and_eq_true_iff.mp hat
  have hw : (s.proc victim).state = .sleeping ∧ (s.proc victim).pc = .asleep l := of_decide_eq_true hw
  exact ⟨s, Lib.Reach.of_run (fun _ _ _ => trivial) (slip c) (.init init_start) hs, hw, hk⟩

/-- On an empty pipe, on a full one, with a living child, without input, before the next tick. -/
theorem kill_lost : Lost (.piperead false 1) ∧ Lost (.pipewrite true 0 1) ∧ Lost .wait ∧ Lost (.consoleread 1 1) ∧
    Lost (.sleep 0 1) := by
  refine ⟨lost_of_slip (c := .piperead false 1) ?_, lost_of_slip (c := .pipewrite true 1) ?_,
    lost_of_slip (c := .wait) ?_, lost_of_slip (c := .consoleread 1) ?_, lost_of_slip (c := .sleep 1) ?_⟩ <;>
    decide +kernel

theorem no_lost_kill_asleep : ∃ s : Sys Bool, ((s.proc victim).state = .runnable ∧ (s.proc victim).killed = true) ∧
    ∀ p l, Waits (s.proc p) l → (s.proc p).killed = false := by
  let trace : List (Action Bool) :=
    [.call victim .wait, .run victim 0 0, .run victim 0 0, .run victim 0 0, .kill killer 2 victim]
  have h : (Lib.run step misses start trace).any (fun s =>
      decide ((s.proc victim).state = .runnable ∧ (s.proc victim).killed = true)) = true := by
    decide +kernel
  obtain ⟨s, hrun, hs⟩ := (Option.any_eq_true _ _).mp h
  exact ⟨s, of_decide_eq_true hs,
    (no_lost_kill (Lib.Reach.of_run (fun _ _ h => h) trace (.init init_start) hrun)).1⟩

end Xv6.Interruptible
