import Mathlib.Data.Fintype.Card
import Mathlib.Data.Fintype.Pi
import Xv6.Lib.Reach
import Xv6.Log.Basic

/-! Group commit: any number of processes run `begin_op`, `log_write` and `end_op` of `kernel/log.c`, interleaved at
    the critical sections under `log.lock` and at the block writes of `commit()`. -/

namespace Xv6.Group

inductive Panic where
  /-- `panic("log.committing")` -/
  | logCommitting
  /-- `panic("too big a transaction")` -/
  | tooBig
  /-- `panic("log_write outside of trans")` -/
  | outsideTrans
  deriving DecidableEq, Repr

inductive Phase where
  /-- At `if (log.lh.n > 0)`. -/
  | enter
  /-- In `write_log`, about to copy entry `tail`. -/
  | writeLog (tail : Nat)
  /-- At the `write_head` that commits. -/
  | writeHead
  /-- In `install_trans(0)`, about to install entry `tail`. -/
  | install (tail : Nat)
  /-- At `log.lh.n = 0`. -/
  | clear
  /-- At the `write_head` that erases the transaction. -/
  | eraseHead
  /-- Back in `end_op`, about to clear `log.committing`. -/
  | finish
  deriving DecidableEq, Repr

inductive Pc where
    | idle
  /-- In `begin_op`, SLEEPING on `&log`. -/
  | asleep
  /-- In `begin_op`, made RUNNABLE again and about to re-check. -/
  | woken
  /-- Between `begin_op` and `end_op`; `logged` lists the blocks the operation has logged so far. -/
  | inOp (logged : List Nat)
  /-- In the `do_commit` branch of `end_op`. -/
  | commit (ph : Phase)
  deriving DecidableEq, Repr

/-- A commit that has erased its transaction: the blocks logged for it, with repetitions, and those it wrote home. -/
structure Commit where
  logged : List Nat
  written : List Nat

/-- An operation that has ended: how many commits there were before its end, and what it logged. -/
structure Op where
  commits : Nat
  logged : List Nat

/-- What happened so far. Nothing of it is read by the code. -/
structure History where
  /-- The blocks logged since the last commit, in order and with repetitions. -/
  group : List Nat
  /-- The home blocks that the running commit has written. -/
  written : List Nat
  commits : List Commit
  ended : List Op

structure Sys (P : Type) where
  log : Log
  pc : P → Pc
  hist : History

inductive Action (P : Type) where
  /-- One pass of `begin_op`'s loop, from the call or after a wakeup. -/
  | beginOp (p : P)
  /-- `log_write` of a buffer that holds `blockno`. -/
  | logWrite (p : P) (blockno : Nat)
  /-- The first critical section of `end_op`. -/
  | endOp (p : P)
  /-- The next step of `commit()`, or the critical section of `end_op` that follows it. -/
  | commitStep (p : P)

inductive Refusal where
    | disabled
  | panic (m : Panic)
  deriving DecidableEq, Repr

section Model
variable {P : Type} [DecidableEq P]

def wakeup (pc : P → Pc) : P → Pc := fun p => if pc p = .asleep then .woken else pc p

/-- `begin_op`: sleep while a commit runs or the log might run out of space, else join. -/
def beginOp (s : Sys P) (p : P) : Sys P :=
  if s.log.committing then
    { s with pc := Function.update s.pc p .asleep }
  else if (s.log.lh.n : Int) + (s.log.outstanding + 1) * MAXOPBLOCKS > LOGSIZE then
    { s with pc := Function.update s.pc p .asleep }
  else
    { s with
      log := { s.log with outstanding := s.log.outstanding + 1 }
      pc := Function.update s.pc p (.inOp []) }

/-- `log_write` by a process whose operation has logged `logged`. -/
def logWrite (s : Sys P) (p : P) (logged : List Nat) (blockno : Nat) : Except Refusal (Sys P) :=
  if s.log.lh.n ≥ LOGSIZE ∨ (s.log.lh.n : Int) ≥ (s.log.size : Int) - 1 then
    .error (.panic .tooBig)
  else if s.log.outstanding < 1 then
    .error (.panic .outsideTrans)
  else
    .ok { s with
      log := { s.log with lh := s.log.lh.log blockno }
      pc := Function.update s.pc p (.inOp (logged ++ [blockno]))
      hist := { s.hist with group := s.hist.group ++ [blockno] } }

/-- `end_op` up to the release of `log.lock`. -/
def endOp (s : Sys P) (p : P) (logged : List Nat) : Except Refusal (Sys P) :=
  let hist := { s.hist with ended := s.hist.ended ++ [⟨s.hist.commits.length, logged⟩] }
  if s.log.committing then
    .error (.panic .logCommitting)
  else if s.log.outstanding - 1 = 0 then
    .ok { log := { s.log with outstanding := s.log.outstanding - 1, committing := true }
          pc := Function.update s.pc p (.commit .enter), hist }
  else
    .ok { log := { s.log with outstanding := s.log.outstanding - 1 }
          pc := wakeup (Function.update s.pc p .idle), hist }

/-- One step of `commit()` at `ph`, and of `end_op` after it. -/
def commitStep (s : Sys P) (p : P) : Phase → Sys P
  | .enter =>
    { s with pc := Function.update s.pc p (.commit (if s.log.lh.n > 0 then .writeLog 0 else .finish)) }
  | .writeLog tail =>
    { s with
      pc := Function.update s.pc p (.commit (if tail < s.log.lh.n then .writeLog (tail + 1) else .writeHead)) }
  | .writeHead => { s with pc := Function.update s.pc p (.commit (.install 0)) }
  | .install tail =>
    if tail < s.log.lh.n then
      { s with
        pc := Function.update s.pc p (.commit (.install (tail + 1)))
        hist := { s.hist with written := s.hist.written ++ [s.log.lh.block tail] } }
    else { s with pc := Function.update s.pc p (.commit .clear) }
  | .clear =>
    { log := { s.log with lh := { s.log.lh with n := 0 } }
      pc := Function.update s.pc p (.commit .eraseHead)
      hist := { s.hist with
        group := []
        written := []
        commits := s.hist.commits ++ [⟨s.hist.group, s.hist.written⟩] } }
  | .eraseHead => { s with pc := Function.update s.pc p (.commit .finish) }
  | .finish =>
    { s with
      log := { s.log with committing := false }
      pc := wakeup (Function.update s.pc p .idle) }

def step (s : Sys P) : Action P → Except Refusal (Sys P)
  | .beginOp p =>
    match s.pc p with
    | .idle | .woken => .ok (beginOp s p)
    | _ => .error .disabled
  | .logWrite p blockno =>
    match s.pc p with
    | .inOp logged => logWrite s p logged blockno
    | _ => .error .disabled
  | .endOp p =>
    match s.pc p with
    | .inOp logged => endOp s p logged
    | _ => .error .disabled
  | .commitStep p =>
    match s.pc p with
    | .commit ph => .ok (commitStep s p ph)
    | _ => .error .disabled

/-- After `initlog`: an empty log, no operation, no history. -/
def Init (size : Nat) (s : Sys P) : Prop :=
  s.log.size = size ∧ s.log.outstanding = 0 ∧ s.log.committing = false ∧ s.log.lh.n = 0 ∧
    (∀ p, s.pc p = .idle) ∧ s.hist = ⟨[], [], [], []⟩

def boot (P : Type) : Sys P where
  log := { start := 2, size := LOGSIZE, outstanding := 0, committing := false, lh := ⟨0, fun _ => 0⟩ }
  pc _ := .idle
  hist := ⟨[], [], [], []⟩

theorem boot_init (P : Type) : Init LOGSIZE (boot P) := ⟨rfl, rfl, rfl, rfl, fun _ => rfl, rfl⟩

theorem step_beginOp {s t : Sys P} {p : P} (h : step s (.beginOp p) = .ok t) :
    (s.pc p = .idle ∨ s.pc p = .woken) ∧ t = beginOp s p := by
  simp only [step] at h
  split at h
  · rename_i hp; exact ⟨Or.inl hp, (Except.ok.inj h).symm⟩
  · rename_i hp; exact ⟨Or.inr hp, (Except.ok.inj h).symm⟩
  · cases h

theorem step_logWrite {s t : Sys P} {p : P} {b : Nat} (h : step s (.logWrite p b) = .ok t) :
    ∃ l, s.pc p = .inOp l ∧ s.log.lh.n < LOGSIZE ∧ (s.log.lh.n : Int) < (s.log.size : Int) - 1 ∧
      t = { s with
        log := { s.log with lh := s.log.lh.log b }
        pc := Function.update s.pc p (.inOp (l ++ [b]))
        hist := { s.hist with group := s.hist.group ++ [b] } } := by
  simp only [step] at h
  split at h
  · rename_i l hp
    simp only [logWrite] at h
    split at h
    · cases h
    · rename_i hroom
      split at h
      · cases h
      · exact ⟨l, hp, by omega, by omega, (Except.ok.inj h).symm⟩
  · cases h

theorem step_endOp {s t : Sys P} {p : P} (h : step s (.endOp p) = .ok t) :
    ∃ l, s.pc p = .inOp l ∧ s.log.committing = false ∧
      t.hist = { s.hist with ended := s.hist.ended ++ [⟨s.hist.commits.length, l⟩] } ∧
      ((s.log.outstanding = 1 ∧ t.pc = Function.update s.pc p (.commit .enter) ∧
          t.log = { s.log with outstanding := 0, committing := true }) ∨
       (s.log.outstanding ≠ 1 ∧ t.pc = wakeup (Function.update s.pc p .idle) ∧
          t.log = { s.log with outstanding := s.log.outstanding - 1 })) := by
  simp only [step] at h
  split at h
  · rename_i l hp
    simp only [endOp] at h
    split at h
    · cases h
    · rename_i hc
      have hc' : s.log.committing = false := by simpa using hc
      split at h
      · rename_i ho
        cases h
        exact ⟨l, hp, hc', rfl, Or.inl ⟨by omega, rfl, by simp [ho]⟩⟩
      · cases h
        exact ⟨l, hp, hc', rfl, Or.inr ⟨by omega, rfl, rfl⟩⟩
  · cases h

theorem step_commitStep {s t : Sys P} {p : P} (h : step s (.commitStep p) = .ok t) :
    ∃ ph, s.pc p = .commit ph ∧ t = commitStep s p ph := by
  simp only [step] at h
  split at h
  · rename_i ph hp; exact ⟨ph, hp, (Except.ok.inj h).symm⟩
  · cases h

end Model

section
variable {P : Type}

theorem wakeup_inOp {pc : P → Pc} {q : P} {l : List Nat} : wakeup pc q = .inOp l ↔ pc q = .inOp l := by
  unfold wakeup
  split
  · rename_i h; simp [h]
  · rfl

theorem wakeup_commit {pc : P → Pc} {q : P} {ph : Phase} : wakeup pc q = .commit ph ↔ pc q = .commit ph := by
  unfold wakeup
  split
  · rename_i h; simp [h]
  · rfl

end

end Xv6.Group
