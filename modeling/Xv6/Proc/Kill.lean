import Xv6.Proc.Reaping

/-! Who is killed. `kill` looks for its pid in unused slots too, and `allocproc` keeps the `killed` flag that it finds
    in the slot. -/

namespace Xv6.ProcTable
open Lib

def Proc.has (x : Proc) (pid : Int) : Bool := x.state ≠ .unused && x.pid = pid

/-- `kill` has found its pid in slot `j`, or the process there has taken an unexpected trap. -/
def hits (s : Sys) (a : Action) (j : Slot) : Bool :=
  match a with
  | .run p _ =>
    match (s.proc p).pc with
    | .kill pid k => k = j.val && (s.proc j).has pid
    | _ => false
  | .call p .fault => p = j
  | _ => false

def Action.caller : Action → Option Slot
  | .call p _ => some p
  | _ => none

/-- The process table, and what its history tells about the flags. Nothing of it is read by the code. -/
structure Watch where
  sys : Sys
  -- since the process in the slot was allocated, `kill` has been called for it or it has trapped
  blamed : Slot → Bool
  -- the slot has held a process with the pid that the call of `kill` by the first process looks for, ever
  -- since the call began
  wanted : Slot → Slot → Bool

namespace Watch
variable (w : Watch) (a : Action) (t : Sys)

def blame (j : Slot) : Bool :=
  if (w.sys.proc j).state = .unused ∧ (t.proc j).state ≠ .unused then false else w.blamed j || hits w.sys a j

def want (p j : Slot) : Bool :=
  match (t.proc p).pc with
  | .kill pid _ => (w.wanted p j || a.caller = some p) && (t.proc j).has pid
  | _ => false

def step : Except Refusal Watch :=
  (ProcTable.step w.sys a).map fun t => { sys := t, blamed := w.blame a t, wanted := w.want a t }

end Watch

/-- What the next step of a call of `kill` by `p` returns, if it returns. -/
def killReturn (s : Sys) (p : Slot) : Option Int :=
  match (s.proc p).pc with
  | .kill pid k =>
    if h : k < NPROC then
      if (s.proc ⟨k, h⟩).pid = pid then some 0 else none
    else some (-1)
  | _ => none

def KillsUsed (w : Watch) (a : Action) : Prop :=
  ∀ p mem j, a = .run p mem → (w.sys.proc p).pc = .kill 0 j.val → (w.sys.proc j).state ≠ .unused

/-- After `userinit`: the unused slots are all zero, and nobody has been killed. -/
structure Watch.Start (w : Watch) : Prop where
  init : Init w.sys
  pid : ∀ j, (w.sys.proc j).state = .unused → (w.sys.proc j).pid = 0
  killed : ∀ j, (w.sys.proc j).killed = false

structure Tag where
  unused : Bool
  pid : Int
  killed : Bool

def Proc.tag (x : Proc) : Tag := ⟨x.state = .unused, x.pid, x.killed⟩

inductive Tagged (s : Sys) (a : Action) (j : Slot) : Tag → Prop where
  | same : Tagged s a j (s.proc j).tag
  | alloc : (s.proc j).state = .unused → Tagged s a j ⟨false, s.nextpid, (s.proc j).killed⟩
  -- the last step of `fork`
  | start : Tagged s a j ⟨false, (s.proc j).pid, (s.proc j).killed⟩
  | free : Tagged s a j ⟨true, 0, false⟩
  | kill {p : Slot} {mem : Bool} : a = .run p mem → (s.proc p).pc = .kill (s.proc j).pid j.val →
      Tagged s a j ⟨(s.proc j).state = .unused, (s.proc j).pid, true⟩
  | fault : a = .call j .fault → (s.proc j).state ≠ .unused → Tagged s a j ⟨false, (s.proc j).pid, true⟩

def Pc.killing : Pc → Bool
  | .kill .. => true
  | _ => false

/-- How a step may leave the position of `j`, as far as calls of `kill` go. -/
inductive Scan (s : Sys) (a : Action) (j : Slot) : Pc → Prop where
  | same : a.caller ≠ some j → Scan s a j (s.proc j).pc
  | out {c : Pc} : c.killing = false → Scan s a j c
  | enter {pid : Int} : Scan s a j (.kill pid 0)
  | next {mem : Bool} {pid : Int} (i : Slot) : a = .run j mem → (s.proc j).pc = .kill pid i.val →
      (s.proc i).pid ≠ pid → Scan s a j (.kill pid (i.val + 1))

structure Moved (s : Sys) (a : Action) (j : Slot) (x : Proc) : Prop where
  tag : Tagged s a j x.tag
  scan : Scan s a j x.pc

section
variable {s t : Sys} {a : Action} {p : Slot}

theorem tag_of_used {x y : Proc} (hx : x.state ≠ .unused) (hy : y.state ≠ .unused) (hpid : y.pid = x.pid)
    (hkilled : y.killed = x.killed) : y.tag = x.tag := by
  simp [Proc.tag, hx, hy, hpid, hkilled]

theorem tag_wake (x : Proc) (chan : Option Chan) : (x.wake chan).tag = x.tag := by
  unfold Proc.wake
  split
  · rename_i h
    exact tag_of_used (by simp [h.1]) (by simp) rfl rfl
  · rfl

theorem pc_wake (x : Proc) (chan : Option Chan) : (x.wake chan).pc = x.pc := by
  unfold Proc.wake
  split <;> rfl

theorem tag_killIt (x : Proc) : x.killIt.tag = ⟨x.state = .unused, x.pid, true⟩ := by
  cases hs : x.state <;> simp [Proc.killIt, Proc.tag, hs]

theorem Scan.of_same {i : Slot} {x : Proc} (ha : a.caller ≠ some i) (h : x.pc = (s.proc i).pc) : Scan s a i x.pc := by
  rw [h]
  exact .same ha

theorem not_caller (h : a.caller = none) (j : Slot) : a.caller ≠ some j := by simp [h]

theorem Moved.set {i : Slot} {x : Proc} (ha : ∀ j, j ≠ i → a.caller ≠ some j) (h : Moved s a i x) (j : Slot) :
    Moved s a j ((s.set i x).proc j) := by
  rcases eq_or_ne j i with rfl | hj
  · rw [set_self]; exact h
  · rw [set_ne s x hj]; exact ⟨.same, .same (ha j hj)⟩

theorem Moved.of_used {x : Proc} (hs : (s.proc p).state ≠ .unused) (hx : x.state ≠ .unused)
    (hpid : x.pid = (s.proc p).pid) (hkilled : x.killed = (s.proc p).killed) (hpc : Scan s a p x.pc) :
    Moved s a p x := by
  refine ⟨?_, hpc⟩
  rw [tag_of_used hs hx hpid hkilled]
  exact .same

theorem Moved.of_wake (x : Proc) (hx : x = s.proc p) (ha : a.caller ≠ some p) (chan : Option Chan) :
    Moved s a p (x.wake chan) := by
  subst hx
  refine ⟨?_, .of_same ha (pc_wake ..)⟩
  rw [tag_wake]
  exact .same

theorem Moved.goto {c : Pc} (ha : ∀ j, j ≠ p → a.caller ≠ some j) (hc : Scan s a p c) (j : Slot) :
    Moved s a j ((s.goto p c).proc j) := .set (x := (s.proc p).goto c) ha ⟨.same, hc⟩ j

/-! ### One step -/

section
variable {mem : Bool}

theorem Moved.run_set {i : Slot} {x : Proc} {c : Pc} (h : Tagged s (.run p mem) i x.tag)
    (hx : x.pc = (s.proc i).pc ∨ x.pc.killing = false) (hc : c.killing = false) (j : Slot) :
    Moved s (.run p mem) j (((s.set i x).goto p c).proc j) := by
  have hi : Moved s (.run p mem) i x := ⟨h, hx.elim (.of_same (not_caller rfl i)) .out⟩
  have hj := hi.set (fun j _ => not_caller rfl j) j
  rcases eq_or_ne j p with rfl | hne
  · rw [Sys.goto, set_self]
    exact ⟨hj.tag, .out hc⟩
  · rw [goto_ne _ c hne]
    exact hj

theorem Moved.run_goto {c : Pc} (hc : c.killing = false) (j : Slot) :
    Moved s (.run p mem) j ((s.goto p c).proc j) := .goto (fun j _ => not_caller rfl j) (.out hc) j

theorem Moved.run_wakeup {i : Slot} {chan : Option Chan} {c : Pc} (hc : c.killing = false) (j : Slot) :
    Moved s (.run p mem) j (((s.wakeup p i chan).goto p c).proc j) := by
  unfold Sys.wakeup
  split
  · exact .run_goto hc j
  · refine .run_set ?_ (.inl (pc_wake ..)) hc j
    rw [tag_wake]
    exact .same

theorem moved_run (hrun : (s.proc p).state = .running) (h : runPc s p mem (s.proc p).pc = .ok t) (j : Slot) :
    Moved s (.run p mem) j (t.proc j) := by
  cases hpc : (s.proc p).pc with
  | forkScan k =>
    simp only [hpc, runPc] at h
    split at h
    · rename_i hk
      split at h
      · rename_i hunused
        split at h <;> cases h
        · exact Moved.run_set (s := s) (.alloc hunused) (.inr rfl) rfl j
        · exact Moved.run_set (s := s) (x := (s.proc ⟨k, hk⟩).freeproc) (c := .user) .free (.inl rfl) rfl j
      · cases h; exact .run_goto rfl j
    · cases h; exact .run_goto rfl j
  | forked np =>
    simp only [hpc, runPc] at h
    split at h <;> cases h
    exact Moved.run_set (x := (s.proc np).setParent p) .same (.inl rfl) rfl j
  | parented np =>
    simp only [hpc, runPc] at h
    cases h
    exact Moved.run_set (x := (s.proc np).setState .runnable) .start (.inl rfl) rfl j
  | exitEnter status =>
    simp only [hpc, runPc] at h
    split at h <;> cases h
    exact Moved.run_goto (s := s) (c := .exitReparent status 0) rfl j
  | exitReparent status k =>
    simp only [hpc, runPc] at h
    split at h
    · split at h <;> cases h
      · rename_i hk hparent
        exact Moved.run_set (x := (s.proc ⟨k, hk⟩).setParent s.initproc) .same (.inl rfl) rfl j
      · exact .run_goto rfl j
    · cases h; exact .run_goto rfl j
  | exitWakeInit status k i =>
    simp only [hpc, runPc] at h
    split at h <;> cases h
    · exact .run_wakeup rfl j
    · exact .run_goto rfl j
  | exitWakeParent status i =>
    simp only [hpc, runPc] at h
    split at h <;> cases h
    · exact .run_wakeup rfl j
    · exact .run_goto rfl j
  | exitZombie status =>
    simp only [hpc, runPc] at h
    cases h
    have hx : Moved s (.run p mem) p ((s.proc p).die status) :=
      .of_used (by simp [hrun]) (by simp [Proc.die]) rfl rfl (.out rfl)
    exact hx.set (fun j _ => not_caller rfl j) j
  | waitEnter addr =>
    simp only [hpc, runPc] at h
    split at h <;> cases h
    exact Moved.run_goto (s := s) (c := .waitScan addr 0 false) rfl j
  | waitScan addr k havekids =>
    simp only [hpc, runPc] at h
    split at h
    · rename_i hk
      split at h
      · split at h
        · split at h <;> cases h
          · exact Moved.run_goto (s := s) (c := .user) rfl j
          · exact Moved.run_set (s := s) (x := (s.proc ⟨k, hk⟩).freeproc) (c := .user) .free (.inl rfl) rfl j
        · cases h; exact .run_goto rfl j
      · cases h; exact .run_goto rfl j
    · split at h
      · cases h; exact Moved.run_goto (s := s) (c := .user) rfl j
      · split at h <;> cases h
        · exact Moved.run_goto (s := s) (c := .user) rfl j
        · exact .run_goto rfl j
  | waitSleep addr =>
    simp only [hpc, runPc] at h
    cases h
    have hx : Moved s (.run p mem) p ((s.proc p).sleepOn (.proc p) (.waitAsleep addr)) :=
      .of_used (by simp [hrun]) (by simp [Proc.sleepOn]) rfl rfl (.out rfl)
    exact hx.set (fun j _ => not_caller rfl j) j
  | kill pid k =>
    simp only [hpc, runPc] at h
    split at h
    · rename_i hk
      split at h <;> cases h
      · rename_i hpid
        refine Moved.run_set (x := (s.proc ⟨k, hk⟩).killIt) ?_ (.inl rfl) rfl j
        rw [tag_killIt]
        exact .kill rfl (by rw [hpc, hpid])
      · rename_i hpid
        exact .goto (fun j _ => not_caller rfl j) (.next ⟨k, hk⟩ rfl hpc hpid) j
    · cases h; exact .run_goto rfl j
  | user | dead | waitAsleep | asleep => simp [hpc, runPc] at h

end

theorem moved_call {c : Call} (hrun : (s.proc p).state = .running) (hpc : (s.proc p).pc = .user) (h : enter s p c = .ok t) (j : Slot) :
    Moved s (.call p c) j (t.proc j) := by
  have ha : ∀ j, j ≠ p → (Action.call p c).caller ≠ some j := fun j hj hd => by
    cases hd; exact hj rfl
  cases c with
  | fork | wait addr => cases h; exact .goto ha (.out rfl) j
  | kill pid => cases h; exact .goto ha .enter j
  | exit status =>
    simp only [enter] at h
    split at h <;> cases h
    exact .goto ha (.out rfl) j
  | sleep n =>
    cases h
    have hx : Moved s (.call p (.sleep n)) p ((s.proc p).sleepOn (.other n) .asleep) :=
      .of_used (by simp [hrun]) (by simp [Proc.sleepOn]) rfl rfl (.out rfl)
    exact hx.set ha j
  | fault =>
    cases h
    have hx : Moved s (.call p .fault) p { s.proc p with killed := true } :=
      ⟨by simpa [Proc.tag, hrun] using Tagged.fault rfl (by simp [hrun]), .out (by rw [hpc]; rfl)⟩
    exact hx.set ha j

theorem moved_step (h : step s a = .ok t) (j : Slot) : Moved s a j (t.proc j) := by
  cases a with
  | schedule p =>
    simp only [step] at h
    split at h <;> cases h
    rename_i hrun
    refine .set (fun j _ => not_caller rfl j) ?_ j
    unfold Proc.resume
    split
    · exact .of_used (by simp [hrun]) (by simp) rfl rfl (.out rfl)
    · exact .of_used (by simp [hrun]) (by simp) rfl rfl (.out rfl)
    · exact .of_used (by simp [hrun]) (by simp) rfl rfl (.same (not_caller rfl p))
  | yield p =>
    simp only [step] at h
    split at h <;> cases h
    rename_i hrun
    have hx : Moved s (.yield p) p ((s.proc p).setState .runnable) :=
      .of_used (by simp [hrun.1]) (by simp [Proc.setState]) rfl rfl (.same (not_caller rfl p))
    exact hx.set (fun j _ => not_caller rfl j) j
  | call p c =>
    simp only [step] at h
    split at h
    · exact moved_call ‹_ ∧ _›.1 ‹_ ∧ _›.2 h j
    · cases h
  | run p mem =>
    simp only [step] at h
    split at h
    · exact moved_run ‹_› h j
    · cases h
  | wakeup n p =>
    simp only [step] at h
    cases h
    exact .set (fun j _ => not_caller rfl j) (.of_wake _ rfl (not_caller rfl p) _) j

end

section
variable {s t : Sys} {p : Slot} {pid : Int} {k : Nat} {mem : Bool}

theorem goto_pid (s : Sys) (p : Slot) (c : Pc) (j : Slot) : ((s.goto p c).proc j).pid = (s.proc j).pid := by
  rcases eq_or_ne j p with rfl | hj
  · rw [Sys.goto, set_self]; rfl
  · rw [goto_ne s c hj]

theorem step_kill (hrun : (s.proc p).state = .running) (hpc : (s.proc p).pc = .kill pid k) :
    step s (.run p mem) = runPc s p mem (.kill pid k) := by
  simp only [step, hrun, hpc, if_true]

theorem step_kill_found {j : Slot} (hrun : (s.proc p).state = .running) (hpc : (s.proc p).pc = .kill pid j.val)
    (hpid : (s.proc j).pid = pid) : step s (.run p mem) = .ok ((s.set j (s.proc j).killIt).goto p .user) := by
  rw [step_kill hrun hpc]
  simp [runPc, hpid]

theorem step_kill_next {j : Slot} (hrun : (s.proc p).state = .running) (hpc : (s.proc p).pc = .kill pid j.val)
    (hpid : (s.proc j).pid ≠ pid) : step s (.run p mem) = .ok (s.goto p (.kill pid (j.val + 1))) := by
  rw [step_kill hrun hpc]
  simp [runPc, hpid]

theorem step_kill_end (hrun : (s.proc p).state = .running) (hpc : (s.proc p).pc = .kill pid k) (hk : ¬ k < NPROC) :
    step s (.run p mem) = .ok (s.goto p .user) := by
  rw [step_kill hrun hpc]
  simp [runPc, hk]

end

/-! ### The law of the flags -/

structure Watch.Law (w : Watch) : Prop where
  unused : ∀ j, (w.sys.proc j).state = .unused → (w.sys.proc j).pid = 0 ∧ (w.sys.proc j).killed = false
  blamed : ∀ j, (w.sys.proc j).killed = true → w.blamed j = true
  -- the slots that a call of `kill` has passed
  passed : ∀ p pid k, (w.sys.proc p).pc = .kill pid k → ∀ j : Slot, j.val < k → w.wanted p j = false

namespace Watch
variable {w w' : Watch} {a : Action} {t : Sys} {j : Slot} {x : Proc}

theorem Start.law (h : w.Start) : w.Law where
  unused j hj := ⟨h.pid j hj, h.killed j⟩
  blamed j hj := by rw [h.killed j] at hj; cases hj
  passed p pid k hk := by rw [h.init.pc p] at hk; cases hk

theorem step_ok (h : w.step a = .ok w') :
    ∃ t, ProcTable.step w.sys a = .ok t ∧ w' = { sys := t, blamed := w.blame a t, wanted := w.want a t } := by
  unfold Watch.step at h
  cases hs : ProcTable.step w.sys a with
  | error e => rw [hs] at h; cases h
  | ok t => rw [hs] at h; cases h; exact ⟨t, rfl, rfl⟩

theorem tag_inj {u k : Bool} {pid : Int} (h : x.tag = ⟨u, pid, k⟩) :
    (x.state = .unused ↔ u = true) ∧ x.pid = pid ∧ x.killed = k := by
  cases h
  exact ⟨by simp, rfl, rfl⟩

theorem Law.used_of_killed (law : w.Law) (h : (w.sys.proc j).killed = true) : (w.sys.proc j).state ≠ .unused :=
  fun hu => by rw [(law.unused j hu).2] at h; cases h

theorem blame_of_used (hu : (w.sys.proc j).state ≠ .unused) (h : w.blamed j = true ∨ hits w.sys a j = true) :
    w.blame a t j = true := by
  simp [blame, hu, h]

theorem Law.tagged (law : w.Law) (hok : KillsUsed w a) (h : Tagged w.sys a j (t.proc j).tag) :
    ((t.proc j).state = .unused → (t.proc j).pid = 0 ∧ (t.proc j).killed = false) ∧
    ((t.proc j).killed = true → w.blame a t j = true) := by
  have hkept : (w.sys.proc j).killed = true → w.blame a t j = true := fun hk =>
    blame_of_used (law.used_of_killed hk) (.inl (law.blamed j hk))
  generalize hx : (t.proc j).tag = g at h
  cases h with
  | same =>
    obtain ⟨hstate, hpid, hkilled⟩ := tag_inj hx
    rw [hpid, hkilled]
    exact ⟨fun hu => law.unused j (by simpa using hstate.mp hu), hkept⟩
  | alloc hu =>
    obtain ⟨hstate, -, hkilled⟩ := tag_inj hx
    rw [hkilled]
    exact ⟨fun h => absurd (hstate.mp h) (by simp), hkept⟩
  | start =>
    obtain ⟨hstate, -, hkilled⟩ := tag_inj hx
    rw [hkilled]
    exact ⟨fun h => absurd (hstate.mp h) (by simp), hkept⟩
  | free =>
    obtain ⟨-, hpid, hkilled⟩ := tag_inj hx
    rw [hkilled]
    exact ⟨fun _ => ⟨hpid, rfl⟩, nofun⟩
  | @kill p mem ha hpc =>
    obtain ⟨hstate, -, -⟩ := tag_inj hx
    -- an unused slot has pid 0, and nobody asks for it there
    have hused : (w.sys.proc j).state ≠ .unused := fun hu =>
      hok p mem j ha (by rw [hpc, (law.unused j hu).1]) hu
    refine ⟨fun h => absurd (by simpa using hstate.mp h) hused, fun _ => blame_of_used hused (.inr ?_)⟩
    simp [ha, hits, hpc, Proc.has, hused]
  | fault ha hused =>
    obtain ⟨hstate, -, -⟩ := tag_inj hx
    refine ⟨fun h => absurd (hstate.mp h) (by simp), fun _ => blame_of_used hused (.inr ?_)⟩
    simp [ha, hits]

theorem Law.scan (law : w.Law) (hs : ProcTable.step w.sys a = .ok t) {p : Slot} {pid : Int} {k : Nat}
    (hpc : (t.proc p).pc = .kill pid k) (hj : j.val < k) : w.want a t p j = false := by
  have hscan := (moved_step hs p).scan
  rw [hpc] at hscan
  have hold : a.caller ≠ some p → w.wanted p j = false → w.want a t p j = false := fun ha hw => by
    simp [want, hpc, hw, ha]
  generalize hc : Pc.kill pid k = c at hscan
  cases hscan with
  | same ha => exact hold ha (law.passed p pid k hc.symm j hj)
  | out hout => rw [← hc] at hout; cases hout
  | enter => cases hc; exact absurd hj (Nat.not_lt_zero _)
  | @next mem pid' i ha hpc' hpid =>
    cases hc
    rcases Nat.lt_succ_iff_lt_or_eq.mp hj with hlt | heq
    · exact hold (by simp [ha, Action.caller]) (law.passed p pid i.val hpc' j hlt)
    · -- the slot that has just been passed: its pid is another one, and `kill` does not touch it
      obtain rfl : j = i := Fin.ext heq
      subst ha
      have hrun : (w.sys.proc p).state = .running := by
        by_contra hrun
        simp [ProcTable.step, hrun] at hs
      rw [step_kill_next hrun hpc' hpid] at hs
      cases hs
      simp [want, Proc.has, goto_pid, hpid]

theorem Law.step (law : w.Law) (hok : KillsUsed w a) (h : w.step a = .ok w') : w'.Law := by
  obtain ⟨t, hs, rfl⟩ := step_ok h
  exact ⟨fun j => (law.tagged hok (moved_step hs j).tag).1, fun j => (law.tagged hok (moved_step hs j).tag).2,
    fun p pid k hk j hj => law.scan hs hk hj⟩

theorem law_reach (h : Reach Start Watch.step KillsUsed w) : w.Law :=
  h.invariant (fun _ => Start.law) fun _ _ _ law hok hs => law.step hok hs

end Watch

/-- Unless a `kill(0)` comes upon an unused slot, a call of `kill` that returns 0 has found a process with its pid and
    touches nothing else; one that returns -1 has met no process that had its pid all the time. -/
theorem only_target_killed {w : Watch} (h : Reach Watch.Start Watch.step KillsUsed w) :
    (∀ p pid k mem, (w.sys.proc p).state = .running → (w.sys.proc p).pc = .kill pid k → KillsUsed w (.run p mem) →
      (killReturn w.sys p = some 0 ∧ ∃ j, (w.sys.proc j).state ≠ .unused ∧ (w.sys.proc j).pid = pid ∧
        step w.sys (.run p mem) = .ok ((w.sys.set j (w.sys.proc j).killIt).goto p .user)) ∨
      (killReturn w.sys p = some (-1) ∧ (∀ j, w.wanted p j = false) ∧
        step w.sys (.run p mem) = .ok (w.sys.goto p .user)) ∨
      (killReturn w.sys p = none ∧ k < NPROC ∧
        step w.sys (.run p mem) = .ok (w.sys.goto p (.kill pid (k + 1))))) ∧
    (∀ j, (w.sys.proc j).killed = true → w.blamed j = true) ∧
    (∀ j, (w.sys.proc j).state = .unused → (w.sys.proc j).killed = false) ∧
    (∀ a w', KillsUsed w a → w.step a = .ok w' → ∀ j, (w.sys.proc j).state = .unused →
      (w'.sys.proc j).state ≠ .unused → (w'.sys.proc j).killed = false) := by
  have law := Watch.law_reach h
  refine ⟨fun p pid k mem hrun hpc hok => ?_, law.blamed, fun j hj => (law.unused j hj).2,
    fun a w' hok hs j hu hu' => ?_⟩
  · by_cases hk : k < NPROC
    · obtain ⟨j, rfl⟩ : ∃ j : Slot, j.val = k := ⟨⟨k, hk⟩, rfl⟩
      by_cases hpid : (w.sys.proc j).pid = pid
      · have hused : (w.sys.proc j).state ≠ .unused := fun hu => by
          rw [(law.unused j hu).1] at hpid
          exact hok p mem j rfl (by rw [hpc, hpid]) hu
        exact .inl ⟨by simp [killReturn, hpc, hpid], j, hused, hpid, step_kill_found hrun hpc hpid⟩
      · exact .inr (.inr ⟨by simp [killReturn, hpc, hpid], hk, step_kill_next hrun hpc hpid⟩)
    · refine .inr (.inl ⟨by simp [killReturn, hpc, hk], fun j => ?_, step_kill_end hrun hpc hk⟩)
      exact law.passed p pid k hpc j (lt_of_lt_of_le j.isLt (Nat.le_of_not_lt hk))
  · have law' := law.step hok hs
    obtain ⟨t, -, rfl⟩ := Watch.step_ok hs
    by_contra hkilled
    have hblamed : w.blame a t j = true := law'.blamed j (by simpa using hkilled)
    -- whoever is allocated starts with a clean record
    simp [Watch.blame, hu, hu'] at hblamed

def Watch.boot : Watch := { sys := ProcTable.boot, blamed := fun _ => false, wanted := fun _ _ => false }

theorem Watch.boot_start : Watch.boot.Start where
  init := boot_init
  pid j hj := by
    by_cases h0 : j = 0
    · simp [Watch.boot, ProcTable.boot, h0] at hj
    · simp [Watch.boot, ProcTable.boot, h0]
  killed _ := rfl

def killsUsed (w : Watch) : Action → Bool
  | .run p _ =>
    match (w.sys.proc p).pc with
    | .kill pid k => if h : k < NPROC then pid ≠ 0 || (w.sys.proc ⟨k, h⟩).state ≠ .unused else true
    | _ => true
  | _ => true

theorem killsUsed_sound (w : Watch) (a : Action) (h : killsUsed w a = true) : KillsUsed w a := by
  rintro p mem j rfl hpc hu
  simp [killsUsed, hpc, hu] at h

theorem only_target_killed_child : ∃ w : Watch, (w.sys.proc 1).killed = true ∧ (w.sys.proc 1).pid = 2 ∧
    w.blamed 1 = true ∧ (w.sys.proc 2).killed = false := by
  let trace : List Action := List.flatten [[.schedule 0, .call 0 .fork], List.replicate 4 (.run 0 true),
    [.call 0 (.kill 2)], List.replicate 2 (.run 0 true)]
  have h : (run Watch.step killsUsed Watch.boot trace).any (fun w => (w.sys.proc 1).killed && (w.sys.proc 1).pid = 2 &&
      (w.sys.proc 2).state = .unused) = true := by
    decide +kernel
  obtain ⟨w, hrun, hw⟩ := (Option.any_eq_true _ _).mp h
  simp only [Bool.and_eq_true, decide_eq_true_eq] at hw
  obtain ⟨⟨hkilled, hpid⟩, hunused⟩ := hw
  obtain ⟨-, hblamed, hfree, -⟩ := only_target_killed (Reach.of_run killsUsed_sound _ (.init Watch.boot_start) hrun)
  exact ⟨w, hkilled, hpid, hblamed 1 hkilled, hfree 2 hunused⟩

/-- `kill(0)` returns 0 for an unused slot, and the child that `fork` then puts there is killed before it has run. -/
theorem kill_zero_marks_unused : ∃ w w' : Watch,
    (Reach Watch.Start Watch.step (fun _ _ => True) w ∧ killReturn w.sys 0 = some 0 ∧
      (w.sys.proc 0).pc = .kill 0 1 ∧ ∀ j, ((w.sys.proc j).has 0) = false) ∧
    (Reach Watch.Start Watch.step (fun _ _ => True) w' ∧ (w'.sys.proc 1).state = .used ∧ (w'.sys.proc 1).pid = 2 ∧
      (w'.sys.proc 1).killed = true ∧ w'.blamed 1 = false) := by
  let trace : List Action := [.schedule 0, .call 0 (.kill 0), .run 0 true]
  let trace' : List Action := trace ++ [.run 0 true, .call 0 .fork, .run 0 true, .run 0 true]
  have h : (run Watch.step (fun _ _ => true) Watch.boot trace).any (fun w => killReturn w.sys 0 = some 0 &&
      (w.sys.proc 0).pc = .kill 0 1 && decide (∀ j, ((w.sys.proc j).has 0) = false)) = true := by
    decide +kernel
  have h' : (run Watch.step (fun _ _ => true) Watch.boot trace').any (fun w => (w.sys.proc 1).state = .used &&
      (w.sys.proc 1).pid = 2 && (w.sys.proc 1).killed && !w.blamed 1) = true := by
    decide +kernel
  obtain ⟨w, hrun, hw⟩ := (Option.any_eq_true _ _).mp h
  obtain ⟨w', hrun', hw'⟩ := (Option.any_eq_true _ _).mp h'
  simp only [Bool.and_eq_true, decide_eq_true_eq, Bool.not_eq_true'] at hw hw'
  obtain ⟨⟨hret, hpc⟩, hhas⟩ := hw
  obtain ⟨⟨⟨hstate, hpid⟩, hkilled⟩, hblamed⟩ := hw'
  exact ⟨w, w', ⟨Reach.of_run (fun _ _ _ => trivial) _ (.init Watch.boot_start) hrun, hret, hpc, hhas⟩,
    Reach.of_run (fun _ _ _ => trivial) _ (.init Watch.boot_start) hrun', hstate, hpid, hkilled, hblamed⟩

end Xv6.ProcTable
