import Xv6.Proc.Table

/-! The scheduler of `kernel/proc.c` on several processors. Every section under a `p->lock` is one step, cut where it
    contains a `swtch`, across which the lock stays held. -/

namespace Xv6.Sched
open ProcTable (Slot State)

inductive Call where
  | yield | sleep | exit
  deriving DecidableEq, Repr

/-- `p->context`: the `n`-th call of `sched` by `p` since its allocation saves `sched p call n`. -/
inductive Context where
  -- never written
  | zero
  | forkret (p : Slot)
  | sched (p : Slot) (call : Call) (n : Nat)
  deriving DecidableEq, Repr

/-- `struct proc`, as far as it is used here. -/
structure Proc (C : Type) where
  state : State
  -- the processor that holds `p->lock`
  lock : Option C
  chan : Option Nat
  context : Context
  -- `np` of a `fork` that has not made its child runnable yet, on the kernel stack of the process
  np : Option Slot
  -- the calls of `sched` since `allocproc`; nothing reads it
  calls : Nat

inductive Thread where
  -- `scheduler`, before `acquire(&p->lock)` of slot `k`
  | loop (k : Nat)
  -- `scheduler`, returned from `swtch` with `p` in its local variable and `p->lock` held
  | back (p : Slot)
  -- a process, just switched to at a context, with `p->lock` held
  | entered (ctx : Context)
  -- the kernel or user code of a process, outside every `p->lock`
  | run (p : Slot)
  deriving DecidableEq, Repr

/-- `struct cpu`; of `c->context` only the scheduler's local `p` matters. -/
structure Cpu where
  proc : Option Slot
  context : Option Slot
  thread : Thread

structure Sys (C : Type) where
  proc : Slot → Proc C
  cpu : C → Cpu
  initproc : Slot

inductive Action (C : Type) where
  -- the next step of the scheduler thread
  | scheduler (c : C)
  -- a process goes on behind `swtch`
  | resume (c : C)
  | yield (c : C)
  | sleep (c : C) (chan : Nat)
  | exit (c : C)
  -- `wakeup(chan)` at the slot of `q`, by a process or by an interrupt that finds the scheduler
  | wakeup (c : C) (chan : Nat) (q : Slot)
  | kill (c : C) (q : Slot)
  -- `fork` up to `release(&np->lock)`; `mem` tells whether all allocations succeed
  | fork (c : C) (np : Slot) (mem : Bool)
  | forked (c : C)
  -- `wait` frees the slot of a child; which process is whose child does not matter here
  | wait (c : C) (q : Slot)

inductive Refusal where
  | disabled
  | initExiting
  -- `sched p->lock`, `sched running` and `release`
  | schedLock | schedRunning | release
  | zombieExit
  -- a null pointer or a context that was never written
  | wild
  deriving DecidableEq, Repr

variable {C : Type}

def Sys.setProc (s : Sys C) (p : Slot) (x : Proc C) : Sys C := { s with proc := Function.update s.proc p x }

@[simp, grind =] theorem Sys.setProc_proc (s : Sys C) (p q : Slot) (x : Proc C) :
    (s.setProc p x).proc q = if q = p then x else s.proc q := Function.update_apply ..
@[simp, grind =] theorem Sys.setProc_cpu (s : Sys C) (p : Slot) (x : Proc C) : (s.setProc p x).cpu = s.cpu := rfl
@[simp, grind =] theorem Sys.setProc_initproc (s : Sys C) (p : Slot) (x : Proc C) :
    (s.setProc p x).initproc = s.initproc := rfl

/-- `myproc()` of a processor that runs a process outside every `p->lock`. -/
def Sys.myproc (s : Sys C) (c : C) : Except Refusal Slot :=
  match (s.cpu c).thread with
  | .run _ =>
    match (s.cpu c).proc with
    | none => .error .wild
    | some p => .ok p
  | _ => .error .disabled

theorem Sys.myproc_ok {s : Sys C} {c : C} {p : Slot} (h : s.myproc c = .ok p) :
    (∃ q, (s.cpu c).thread = .run q) ∧ (s.cpu c).proc = some p := by
  unfold myproc at h
  split at h
  · rename_i q hq
    split at h
    · cases h
    · rename_i hp
      cases h
      exact ⟨⟨q, hq⟩, hp⟩
  · cases h

variable [DecidableEq C]

namespace Sys

def setCpu (s : Sys C) (c : C) (x : Cpu) : Sys C := { s with cpu := Function.update s.cpu c x }

def goto (s : Sys C) (c : C) (t : Thread) : Sys C := s.setCpu c { s.cpu c with thread := t }

def release (s : Sys C) (c : C) (p : Slot) : Except Refusal (Sys C) :=
  if (s.proc p).lock = some c then .ok (s.setProc p { s.proc p with lock := none }) else .error .release

def stack : Context → Option Slot
  | .zero => none
  | .forkret p => some p
  | .sched p _ _ => some p

/-- The body of the scheduler's loop: `p->state = RUNNING; c->proc = p; swtch(&c->context, &p->context)`. -/
def switchTo (s : Sys C) (c : C) (p : Slot) : Except Refusal (Sys C) :=
  if stack (s.proc p).context = none then .error .wild
  else .ok ((s.setProc p { s.proc p with state := .running, lock := some c }).setCpu c
    { proc := some p, context := some p, thread := .entered (s.proc p).context })

def scheduler (s : Sys C) (c : C) : Except Refusal (Sys C) :=
  match (s.cpu c).thread with
  | .loop k =>
    if h : k < NPROC then
      if (s.proc ⟨k, h⟩).lock ≠ none then .error .disabled
      else if (s.proc ⟨k, h⟩).state = .runnable then s.switchTo c ⟨k, h⟩
      else .ok (s.goto c (.loop (k + 1)))
    else .ok (s.goto c (.loop 0))
  | .back p => do
    let t ← s.release c p
    .ok (t.setCpu c { s.cpu c with proc := none, thread := .loop (p.val + 1) })
  | _ => .error .disabled

/-- What follows `swtch` in `sched` and its caller, or `forkret`, up to the release of `p->lock`. -/
def resume (s : Sys C) (c : C) : Except Refusal (Sys C) :=
  match (s.cpu c).thread with
  | .entered (.forkret q) =>
    match (s.cpu c).proc with
    | none => .error .wild
    | some p => do
      let t ← s.release c p
      .ok (t.goto c (.run q))
  | .entered (.sched p .yield _) => do
    let t ← s.release c p
    .ok (t.goto c (.run p))
  | .entered (.sched p .sleep _) => do
    let t ← (s.setProc p { s.proc p with chan := none }).release c p
    .ok (t.goto c (.run p))
  | .entered (.sched _ .exit _) => .error .zombieExit
  | _ => .error .disabled

/-- `sched`, called with `p->lock` held. -/
def sched (s : Sys C) (c : C) (p : Slot) (call : Call) : Except Refusal (Sys C) :=
  if (s.proc p).lock ≠ some c then .error .schedLock
  else if (s.proc p).state = .running then .error .schedRunning
  else match (s.cpu c).context with
    | none => .error .wild
    | some k => .ok ((s.setProc p { s.proc p with
        context := .sched p call ((s.proc p).calls + 1), calls := (s.proc p).calls + 1 }).goto c (.back k))

/-- `acquire(&p->lock)`, `p->state = state` and `sched()`. -/
def giveUp (s : Sys C) (c : C) (p : Slot) (call : Call) (state : State) (chan : Option Nat) :
    Except Refusal (Sys C) :=
  if (s.proc p).lock ≠ none then .error .disabled
  else (s.setProc p { s.proc p with lock := some c, state, chan }).sched c p call

def yield (s : Sys C) (c : C) : Except Refusal (Sys C) := do
  let p ← s.myproc c
  s.giveUp c p .yield .runnable (s.proc p).chan

def sleep (s : Sys C) (c : C) (chan : Nat) : Except Refusal (Sys C) := do
  let p ← s.myproc c
  -- `fork` does not sleep between its sections
  if (s.proc p).np ≠ none then .error .disabled
  else s.giveUp c p .sleep .sleeping (some chan)

def exit (s : Sys C) (c : C) : Except Refusal (Sys C) := do
  let p ← s.myproc c
  if (s.proc p).np ≠ none then .error .disabled
  else if p = s.initproc then .error .initExiting
  else s.giveUp c p .exit .zombie (s.proc p).chan

/-- Interrupts are off wherever a `p->lock` is held. -/
def interruptible : Thread → Bool
  | .loop _ | .run _ => true
  | .back _ | .entered _ => false

def wakeup (s : Sys C) (c : C) (chan : Nat) (q : Slot) : Except Refusal (Sys C) :=
  if ¬ interruptible (s.cpu c).thread then .error .disabled
  else if (s.cpu c).proc = some q then .ok s
  else if (s.proc q).lock ≠ none then .error .disabled
  else if (s.proc q).state = .sleeping ∧ (s.proc q).chan = some chan then
    .ok (s.setProc q { s.proc q with state := .runnable })
  else .ok s

def kill (s : Sys C) (c : C) (q : Slot) : Except Refusal (Sys C) := do
  let _ ← s.myproc c
  if (s.proc q).lock ≠ none then .error .disabled
  else if (s.proc q).state = .sleeping then .ok (s.setProc q { s.proc q with state := .runnable })
  else .ok s

def fork (s : Sys C) (c : C) (np : Slot) (mem : Bool) : Except Refusal (Sys C) := do
  let p ← s.myproc c
  if (s.proc p).np ≠ none ∨ (s.proc np).lock ≠ none ∨ (s.proc np).state ≠ .unused then .error .disabled
  else if mem then
    let x : Proc C := { s.proc np with state := .used, context := .forkret np, np := none, calls := 0 }
    .ok ((s.setProc np x).setProc p { (s.setProc np x).proc p with np := some np })
  else .ok (s.setProc np { s.proc np with state := .unused, chan := none })

def forked (s : Sys C) (c : C) : Except Refusal (Sys C) := do
  let p ← s.myproc c
  match (s.proc p).np with
  | none => .error .disabled
  | some np =>
    if (s.proc np).lock ≠ none then .error .disabled
    else
      let t := s.setProc np { s.proc np with state := .runnable }
      .ok (t.setProc p { t.proc p with np := none })

def wait (s : Sys C) (c : C) (q : Slot) : Except Refusal (Sys C) := do
  let _ ← s.myproc c
  if (s.proc q).lock ≠ none ∨ (s.proc q).state ≠ .zombie then .error .disabled
  else .ok (s.setProc q { s.proc q with state := .unused, chan := none })

end Sys

def step (s : Sys C) : Action C → Except Refusal (Sys C)
  | .scheduler c => s.scheduler c
  | .resume c => s.resume c
  | .yield c => s.yield c
  | .sleep c chan => s.sleep c chan
  | .exit c => s.exit c
  | .wakeup c chan q => s.wakeup c chan q
  | .kill c q => s.kill c q
  | .fork c np mem => s.fork c np mem
  | .forked c => s.forked c
  | .wait c q => s.wait c q

/-- After `userinit`, when every processor has entered `scheduler`. -/
structure Init (s : Sys C) : Prop where
  cpu : ∀ c, (s.cpu c).thread = .loop 0 ∧ (s.cpu c).proc = none
  lock : ∀ p, (s.proc p).lock = none
  np : ∀ p, (s.proc p).np = none
  first : (s.proc s.initproc).state = .runnable ∧ (s.proc s.initproc).context = .forkret s.initproc ∧
    (s.proc s.initproc).calls = 0
  rest : ∀ p, p ≠ s.initproc → (s.proc p).state = .unused

/-! ### What a step does -/

namespace Sys

@[simp, grind =] theorem setCpu_cpu (s : Sys C) (c d : C) (x : Cpu) :
    (s.setCpu c x).cpu d = if d = c then x else s.cpu d := Function.update_apply ..
@[simp, grind =] theorem setCpu_proc (s : Sys C) (c : C) (x : Cpu) : (s.setCpu c x).proc = s.proc := rfl
@[simp, grind =] theorem setCpu_initproc (s : Sys C) (c : C) (x : Cpu) : (s.setCpu c x).initproc = s.initproc := rfl
@[simp, grind =] theorem goto_proc (s : Sys C) (c : C) (t : Thread) : (s.goto c t).proc = s.proc := rfl
@[simp, grind =] theorem goto_cpu (s : Sys C) (c d : C) (t : Thread) :
    (s.goto c t).cpu d = if d = c then { s.cpu c with thread := t } else s.cpu d := Function.update_apply ..

variable {s t : Sys C} {c : C} {p q : Slot}

theorem release_ok (h : s.release c p = .ok t) :
    (s.proc p).lock = some c ∧ t = s.setProc p { s.proc p with lock := none } := by
  unfold release at h
  split at h
  · rename_i hl
    cases h
    exact ⟨hl, rfl⟩
  · cases h

def entering (s : Sys C) (c : C) (p : Slot) : Sys C :=
  (s.setProc p { s.proc p with state := .running, lock := some c }).setCpu c
    { proc := some p, context := some p, thread := .entered (s.proc p).context }

def letGo (s : Sys C) (c : C) (p : Slot) : Sys C :=
  (s.setProc p { s.proc p with lock := none }).setCpu c
    { s.cpu c with proc := none, thread := .loop (p.val + 1) }

theorem scheduler_cases (h : s.scheduler c = .ok t) :
    (∃ k k', (s.cpu c).thread = .loop k ∧ t = s.goto c (.loop k')) ∨
    (∃ p, (s.cpu c).thread = .loop p.val ∧ (s.proc p).lock = none ∧ (s.proc p).state = .runnable ∧
      t = s.entering c p) ∨
    (∃ p, (s.cpu c).thread = .back p ∧ (s.proc p).lock = some c ∧ t = s.letGo c p) := by
  unfold scheduler at h
  split at h
  · rename_i k hk
    split at h
    · rename_i hlt
      split at h
      · cases h
      · rename_i hl
        split at h
        · rename_i hr
          unfold switchTo at h
          split at h
          · cases h
          · cases h
            exact Or.inr (Or.inl ⟨⟨k, hlt⟩, hk, not_not.mp hl, hr, rfl⟩)
        · cases h
          exact Or.inl ⟨k, _, hk, rfl⟩
    · cases h
      exact Or.inl ⟨k, _, hk, rfl⟩
  · rename_i p hp
    obtain ⟨u, hu, h⟩ := Lib.bind_eq_ok.mp h
    cases h
    obtain ⟨hl, rfl⟩ := release_ok hu
    exact Or.inr (Or.inr ⟨p, hp, hl, rfl⟩)
  · cases h

theorem resume_cases (h : s.resume c = .ok t) :
    ∃ ctx p q chan, (s.cpu c).thread = .entered ctx ∧ stack ctx = some q ∧ (s.proc p).lock = some c ∧
      (ctx = .forkret q ∧ (s.cpu c).proc = some p ∨ q = p) ∧
      t = (s.setProc p { s.proc p with chan, lock := none }).goto c (.run q) := by
  unfold resume at h
  split at h
  · rename_i q hq
    split at h
    · cases h
    · rename_i p hp
      obtain ⟨u, hu, h⟩ := Lib.bind_eq_ok.mp h
      cases h
      obtain ⟨hl, rfl⟩ := release_ok hu
      exact ⟨_, p, q, _, hq, rfl, hl, Or.inl ⟨rfl, hp⟩, rfl⟩
  · rename_i p n hp
    obtain ⟨u, hu, h⟩ := Lib.bind_eq_ok.mp h
    cases h
    obtain ⟨hl, rfl⟩ := release_ok hu
    exact ⟨_, p, p, _, hp, rfl, hl, Or.inr rfl, rfl⟩
  · rename_i p n hp
    obtain ⟨u, hu, h⟩ := Lib.bind_eq_ok.mp h
    cases h
    obtain ⟨hl, rfl⟩ := release_ok hu
    rw [setProc_proc, if_pos rfl] at hl
    refine ⟨_, p, p, none, hp, rfl, hl, Or.inr rfl, ?_⟩
    simp [setProc]
  · cases h
  · cases h

def leaving (s : Sys C) (c : C) (p k : Slot) (call : Call) (state : State) (chan : Option Nat) : Sys C :=
  (s.setProc p { s.proc p with
    lock := some c, state, chan, context := .sched p call ((s.proc p).calls + 1),
    calls := (s.proc p).calls + 1 }).goto c (.back k)

theorem giveUp_cases {call : Call} {state : State} {chan : Option Nat} (h : s.giveUp c p call state chan = .ok t) :
    (s.proc p).lock = none ∧ ∃ k, (s.cpu c).context = some k ∧ t = s.leaving c p k call state chan := by
  unfold giveUp at h
  split at h
  · cases h
  · rename_i hl
    unfold sched at h
    simp only [setProc_proc, if_pos] at h
    split at h
    · cases h
    · split at h
      · cases h
      · split at h
        · cases h
        · rename_i k hk
          cases h
          refine ⟨not_not.mp hl, k, hk, ?_⟩
          simp [leaving, setProc]

inductive Remote (s : Sys C) (q : Slot) : Proc C → Prop where
  | wake : (s.proc q).state = .sleeping → Remote s q { s.proc q with state := .runnable }
  | free : (s.proc q).state = .zombie ∨ (s.proc q).state = .unused →
      Remote s q { s.proc q with state := .unused, chan := none }

omit [DecidableEq C] in
theorem wakeup_cases {chan : Nat} (h : s.wakeup c chan q = .ok t) :
    t = s ∨ ∃ x, (s.proc q).lock = none ∧ Remote s q x ∧ t = s.setProc q x := by
  unfold wakeup at h
  split at h
  · cases h
  split at h
  · cases h
    exact Or.inl rfl
  split at h
  · cases h
  rename_i hl
  split at h
  · rename_i hs
    cases h
    exact Or.inr ⟨_, not_not.mp hl, .wake hs.1, rfl⟩
  · cases h
    exact Or.inl rfl

omit [DecidableEq C] in
theorem kill_cases (h : s.kill c q = .ok t) :
    t = s ∨ ∃ x, (s.proc q).lock = none ∧ Remote s q x ∧ t = s.setProc q x := by
  obtain ⟨p, -, h⟩ := Lib.bind_eq_ok.mp h
  split at h
  · cases h
  rename_i hl
  split at h
  · rename_i hs
    cases h
    exact Or.inr ⟨_, not_not.mp hl, .wake hs, rfl⟩
  · cases h
    exact Or.inl rfl

omit [DecidableEq C] in
theorem wait_cases (h : s.wait c q = .ok t) :
    ∃ x, (s.proc q).lock = none ∧ Remote s q x ∧ t = s.setProc q x := by
  obtain ⟨p, -, h⟩ := Lib.bind_eq_ok.mp h
  split at h
  · cases h
  rename_i hl
  obtain ⟨hl, hz⟩ := not_or.mp hl
  cases h
  exact ⟨_, not_not.mp hl, .free (Or.inl (not_not.mp hz)), rfl⟩

def forking (s : Sys C) (p np : Slot) : Sys C :=
  let x : Proc C := { s.proc np with state := .used, context := .forkret np, np := none, calls := 0 }
  (s.setProc np x).setProc p { (s.setProc np x).proc p with np := some np }

omit [DecidableEq C] in
theorem fork_cases {np : Slot} {mem : Bool} (h : s.fork c np mem = .ok t) :
    (s.proc np).lock = none ∧ (s.proc np).state = .unused ∧
    ((∃ p q, (s.cpu c).thread = .run q ∧ (s.cpu c).proc = some p ∧ (s.proc p).np = none ∧ t = s.forking p np) ∨
      ∃ x, Remote s np x ∧ t = s.setProc np x) := by
  obtain ⟨p, hp, h⟩ := Lib.bind_eq_ok.mp h
  obtain ⟨⟨q, hq⟩, hp⟩ := myproc_ok hp
  split at h
  · cases h
  rename_i hn
  obtain ⟨hn, hl⟩ := not_or.mp hn
  obtain ⟨hl, hu⟩ := not_or.mp hl
  refine ⟨not_not.mp hl, not_not.mp hu, ?_⟩
  split at h
  · cases h
    exact Or.inl ⟨p, q, hq, hp, not_not.mp hn, rfl⟩
  · cases h
    exact Or.inr ⟨_, .free (Or.inr (not_not.mp hu)), rfl⟩

def starting (s : Sys C) (p np : Slot) : Sys C :=
  let t := s.setProc np { s.proc np with state := .runnable }
  t.setProc p { t.proc p with np := none }

omit [DecidableEq C] in
theorem forked_cases (h : s.forked c = .ok t) :
    ∃ p np q, (s.cpu c).thread = .run q ∧ (s.cpu c).proc = some p ∧ (s.proc p).np = some np ∧
      (s.proc np).lock = none ∧ t = s.starting p np := by
  obtain ⟨p, hp, h⟩ := Lib.bind_eq_ok.mp h
  obtain ⟨⟨q, hq⟩, hp⟩ := myproc_ok hp
  split at h
  · cases h
  rename_i np hn
  split at h
  · cases h
  rename_i hl
  cases h
  exact ⟨p, np, q, hq, hp, hn, not_not.mp hl, rfl⟩

end Sys

end Xv6.Sched
