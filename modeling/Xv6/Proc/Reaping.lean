import Xv6.Proc.Tree

/-! Every step of the process table keeps pids distinct and parents alive, and reports exits at most once. -/

namespace Xv6.ProcTable
open Lib

instance : NeZero NPROC := ⟨by decide⟩

namespace Pc

def locked : Pc → Bool
  | .exitReparent .. | .exitWakeInit .. | .exitWakeParent .. | .exitZombie _ | .waitScan .. | .waitSleep _ => true
  | _ => false

def exiting : Pc → Bool
  | .exitEnter _ | .exitReparent .. | .exitWakeInit .. | .exitWakeParent .. | .exitZombie _ => true
  | _ => false

def child : Pc → Option Slot
  | .forked np | .parented np => some np
  | _ => none

/-- How many slots the process knows not to be children of its own. -/
def cleared : Pc → Nat
  | .exitReparent _ k => k
  | .exitWakeInit _ k _ => k + 1
  | .exitWakeParent .. | .exitZombie _ => NPROC
  | .waitScan _ k false => k
  | _ => 0

theorem locked_of_cleared {c : Pc} {k : Nat} (h : k < c.cleared) : c.locked = true := by
  cases c with
  | waitScan addr k havekids => rfl
  | exitReparent | exitWakeInit | exitWakeParent | exitZombie => rfl
  | _ => simp [cleared] at h

end Pc

def Sys.core (s : Sys) : Slot → Core := fun i => (s.proc i).core

structure Ctl (s : Sys) : Prop where
  lock : ∀ p, (s.proc p).pc.locked = true → s.waitLock = some p
  exiting : ∀ p, (s.proc p).pc.exiting = true → p ≠ s.initproc
  child : ∀ p np, (s.proc p).pc.child = some np → (s.core np).kind = .used
  inj : ∀ p q np, (s.proc p).pc.child = some np → (s.proc q).pc.child = some np → p = q
  cleared : ∀ p i, i.val < (s.proc p).pc.cleared → (s.core i).parent ≠ some p

structure Inv (s : Sys) : Prop where
  table : Table s.core s.initproc s.calls s.hist
  ctl : Ctl s
  nextpid : s.nextpid = if s.calls + 1 = 2 ^ 31 then -2 ^ 31 else (s.calls : Int) + 1

theorem inv_init {s : Sys} (h : Init s) : Inv s where
  table := by
    have hkind : ∀ i, (s.core i).kind ≠ .unused → i = s.initproc := fun i hi => by
      by_contra hne
      exact hi (by simp [Sys.core, Proc.core, h.unused i hne, State.kind])
    have hinit : (s.core s.initproc).kind = .live := by simp [Sys.core, Proc.core, h.initState, State.kind]
    have hpar : ∀ i, (s.core i).parent = none := h.parent
    refine ⟨fun i => ?_, hinit, fun i q hq => ?_, fun i j hi hj _ => (hkind i hi).trans (hkind j hj).symm, ?_⟩
    · rcases eq_or_ne (s.core i).kind .unused with hu | hu
      · exact .of_unused hu (hpar i)
      · obtain rfl := hkind i hu
        have hpid : (s.core s.initproc).pid = 1 := h.initPid
        refine ⟨fun _ => hpar _, fun _ => ?_, fun hz => ?_, fun _ => by simp [h.hist]⟩
        · rw [hpid, h.calls]; decide
        · rw [hinit] at hz; cases hz
    · rw [hpar i] at hq; cases hq
    · constructor <;> simp [h.hist]
  ctl := by constructor <;> simp [h.pc, Pc.locked, Pc.exiting, Pc.child, Pc.cleared]
  nextpid := by rw [h.nextpid, h.calls]; decide

section
variable {s t : Sys} {p : Slot}

theorem core_set (s : Sys) (i : Slot) (x : Proc) : (s.set i x).core = Function.update s.core i x.core := by
  funext j
  by_cases hj : j = i
  · subst hj; simp [Sys.core, Sys.set]
  · simp [Sys.core, Sys.set, hj]

theorem core_set_same {i : Slot} {x : Proc} (h : x.core = (s.proc i).core) : (s.set i x).core = s.core := by
  rw [core_set, h]
  exact Function.update_eq_self i s.core

@[simp] theorem core_goto (s : Sys) (p : Slot) (c : Pc) : (s.goto p c).core = s.core := core_set_same rfl

@[simp] theorem core_acquire (s : Sys) (p : Slot) : (s.acquire p).core = s.core := rfl

@[simp] theorem core_release (s : Sys) : s.release.core = s.core := rfl

@[simp] theorem core_record (s : Sys) (e : Event) : (s.record e).core = s.core := rfl

@[simp] theorem core_allocpid (s : Sys) : s.allocpid.core = s.core := rfl

theorem core_wake (x : Proc) (chan : Option Chan) : (x.wake chan).core = x.core := by
  unfold Proc.wake
  split
  · rename_i h; simp [Proc.core, h.1, State.kind]
  · rfl

theorem core_wakeup (s : Sys) (p j : Slot) (chan : Option Chan) : (s.wakeup p j chan).core = s.core := by
  unfold Sys.wakeup
  split
  · rfl
  · exact core_set_same (core_wake ..)

theorem core_killIt (x : Proc) : x.killIt.core = x.core := by
  cases hs : x.state <;> simp [Proc.killIt, Proc.core, hs, State.kind]

@[simp] theorem set_self (s : Sys) (i : Slot) (x : Proc) : (s.set i x).proc i = x := Function.update_self ..

theorem set_ne (s : Sys) {i j : Slot} (x : Proc) (h : j ≠ i) : (s.set i x).proc j = s.proc j :=
  Function.update_of_ne h ..

@[simp] theorem goto_self (s : Sys) (p : Slot) (c : Pc) : ((s.goto p c).proc p).pc = c := by
  simp [Sys.goto, Proc.goto]

theorem goto_ne (s : Sys) {p q : Slot} (c : Pc) (h : q ≠ p) : (s.goto p c).proc q = s.proc q := set_ne s _ h

theorem set_pc {i : Slot} {x : Proc} (h : x.pc = (s.proc i).pc) (j : Slot) : ((s.set i x).proc j).pc = (s.proc j).pc := by
  rcases eq_or_ne j i with rfl | hj
  · rw [set_self, h]
  · rw [set_ne s x hj]

theorem wakeup_pc (s : Sys) (p j : Slot) (chan : Option Chan) (q : Slot) :
    ((s.wakeup p j chan).proc q).pc = (s.proc q).pc := by
  unfold Sys.wakeup
  split
  · rfl
  · refine set_pc ?_ q
    unfold Proc.wake
    split <;> rfl

structure Here (s t : Sys) (p : Slot) (c : Pc) : Prop where
  lock : c.locked = true → t.waitLock = some p
  exiting : c.exiting = true → p ≠ t.initproc
  child : ∀ np, c.child = some np → (t.core np).kind = .used ∧ ∀ q, q ≠ p → (s.proc q).pc.child ≠ some np
  cleared : ∀ i, i.val < c.cleared → (t.core i).parent ≠ some p

theorem Ctl.step (ctl : Ctl s) (hinit : t.initproc = s.initproc)
    (hpc : ∀ q, q ≠ p → (t.proc q).pc = (s.proc q).pc ∨ (t.proc q).pc = .user)
    (hlock : ∀ q, q ≠ p → s.waitLock = some q → t.waitLock = some q)
    (hchild : ∀ q np, q ≠ p → (s.proc q).pc.child = some np → (t.core np).kind = .used)
    (hcleared : ∀ q i, q ≠ p → i.val < (s.proc q).pc.cleared → (t.core i).parent ≠ some q)
    (hp : Here s t p (t.proc p).pc) : Ctl t where
  lock q hq := by
    rcases eq_or_ne q p with rfl | hqp
    · exact hp.lock hq
    · rcases hpc q hqp with h | h <;> rw [h] at hq
      · exact hlock q hqp (ctl.lock q hq)
      · cases hq
  exiting q hq := by
    rcases eq_or_ne q p with rfl | hqp
    · exact hp.exiting hq
    · rcases hpc q hqp with h | h <;> rw [h] at hq
      · rw [hinit]; exact ctl.exiting q hq
      · cases hq
  child q np hq := by
    rcases eq_or_ne q p with rfl | hqp
    · exact (hp.child np hq).1
    · rcases hpc q hqp with h | h <;> rw [h] at hq
      · exact hchild q np hqp hq
      · cases hq
  inj q r np hq hr := by
    have old : ∀ {q}, q ≠ p → (t.proc q).pc.child = some np → (s.proc q).pc.child = some np := by
      intro q hqp hq
      rcases hpc q hqp with h | h <;> rw [h] at hq
      · exact hq
      · cases hq
    rcases eq_or_ne q p with rfl | hqp
    · rcases eq_or_ne r q with rfl | hrq
      · rfl
      · exact absurd (old hrq hr) ((hp.child np hq).2 r hrq)
    · rcases eq_or_ne r p with rfl | hrp
      · exact absurd (old hqp hq) ((hp.child np hr).2 q hqp)
      · exact ctl.inj q r np (old hqp hq) (old hrp hr)
  cleared q i hq := by
    rcases eq_or_ne q p with rfl | hqp
    · exact hp.cleared i hq
    · rcases hpc q hqp with h | h <;> rw [h] at hq
      · exact hcleared q i hqp hq
      · exact absurd hq (Nat.not_lt_zero _)

theorem Ctl.here (ctl : Ctl s) (hinit : t.initproc = s.initproc) (hlock : t.waitLock = s.waitLock)
    (hcore : t.core = s.core) : Here s t p (s.proc p).pc where
  lock h := by rw [hlock]; exact ctl.lock p h
  exiting h := by rw [hinit]; exact ctl.exiting p h
  child np h := by
    rw [hcore]
    exact ⟨ctl.child p np h, fun q hqp hq => hqp (ctl.inj q p np hq h)⟩
  cleared i h := by rw [hcore]; exact ctl.cleared p i h

theorem Here.of {c : Pc} (hlock : c.locked = true → t.waitLock = some p) (hexit : c.exiting = true → p ≠ t.initproc)
    (hchild : c.child = none) (hcleared : ∀ i, i.val < c.cleared → (t.core i).parent ≠ some p) : Here s t p c where
  lock := hlock
  exiting := hexit
  child np h := by rw [hchild] at h; cases h
  cleared := hcleared

theorem Here.user : Here s t p .user := .of (by simp [Pc.locked]) (by simp [Pc.exiting]) rfl (by simp [Pc.cleared])

theorem Inv.quiet (inv : Inv s) (hcore : t.core = s.core) (hinit : t.initproc = s.initproc) (hcalls : t.calls = s.calls)
    (hnext : t.nextpid = s.nextpid) (hhist : t.hist = s.hist)
    (hpc : ∀ q, q ≠ p → (t.proc q).pc = (s.proc q).pc)
    (hlock : ∀ q, q ≠ p → s.waitLock = some q → t.waitLock = some q) (hp : Here s t p (t.proc p).pc) : Inv t where
  table := by rw [hcore, hinit, hcalls, hhist]; exact inv.table
  ctl := by
    refine inv.ctl.step hinit (fun q hq => Or.inl (hpc q hq)) hlock (fun q np _ h => ?_) (fun q i _ h => ?_) hp
    · rw [hcore]; exact inv.ctl.child q np h
    · rw [hcore]; exact inv.ctl.cleared q i h
  nextpid := by rw [hnext, hcalls]; exact inv.nextpid

theorem Inv.goto (inv : Inv s) {c : Pc} (hp : Here s (s.goto p c) p c) : Inv (s.goto p c) :=
  inv.quiet (core_goto ..) rfl rfl rfl rfl (fun q hq => by rw [goto_ne s c hq]) (fun _ _ => id) (by rw [goto_self]; exact hp)

theorem Inv.live_of_running (hrun : (s.proc p).state = .running) : (s.core p).kind = .live := by
  simp [Sys.core, Proc.core, hrun, State.kind]

theorem incInt_nextpid (n : Nat) :
    incInt ((n : Int) + 1) = if n + 1 + 1 = 2 ^ 31 then -2 ^ 31 else ((n + 1 : Nat) : Int) + 1 := by
  unfold incInt
  split <;> split <;> omega

theorem Inv.allocSlot {np : Slot} {x : Proc} {c : Pc} (inv : Inv s) (hkind : (s.core np).kind = .unused) (hne : p ≠ np)
    (hlt : s.calls + 1 < 2 ^ 31) (hpar : x.parent = none) (hpc : x.pc = (s.proc np).pc ∨ x.pc = .user)
    (htable : Table (Function.update s.core np x.core) s.initproc (s.calls + 1) s.hist)
    (hc : c = .user ∨ (c = .forked np ∧ x.core.kind = .used)) : Inv ((s.allocpid.set np x).goto p c) := by
  have hcore : ((s.allocpid.set np x).goto p c).core = Function.update s.core np x.core := by
    rw [core_goto, core_set, core_allocpid]
  -- `fork` in another process works on a slot that is not unused
  have hother : ∀ q np', (s.proc q).pc.child = some np' → np' ≠ np := by
    rintro q np' hq rfl
    rw [inv.ctl.child q np' hq] at hkind; cases hkind
  refine ⟨by rw [hcore]; exact htable, ?_, ?_⟩
  · refine inv.ctl.step (p := p) rfl (fun q hq => ?_) (fun _ _ => id) (fun q np' _ hq => ?_) (fun q i _ hi => ?_) ?_
    · rw [goto_ne _ _ hq]
      rcases eq_or_ne q np with rfl | hqn
      · rw [set_self]; exact hpc
      · exact Or.inl (congrArg Proc.pc (set_ne _ _ hqn))
    · rw [hcore, Function.update_of_ne (hother q np' hq)]
      exact inv.ctl.child q np' hq
    · rw [hcore]
      rcases eq_or_ne i np with rfl | hin
      · rw [Function.update_self]
        exact fun hq => absurd (hpar.symm.trans hq) (by simp)
      · rw [Function.update_of_ne hin]; exact inv.ctl.cleared q i hi
    · rw [goto_self]
      rcases hc with rfl | ⟨rfl, hused⟩
      · exact .user
      · refine ⟨by simp [Pc.locked], by simp [Pc.exiting], fun np' hn => ?_, by simp [Pc.cleared]⟩
        cases hn
        rw [hcore, Function.update_self]
        exact ⟨hused, fun q _ hq => hother q np hq rfl⟩
  · show incInt s.nextpid = _
    rw [inv.nextpid, if_neg (Nat.ne_of_lt hlt)]
    exact incInt_nextpid _

theorem inv_forkScan {k : Nat} {mem : Bool} (inv : Inv s) (hrun : (s.proc p).state = .running)
    (hcalls : t.calls < 2 ^ 31) (h : runPc s p mem (.forkScan k) = .ok t) : Inv t := by
  simp only [runPc] at h
  split at h
  · rename_i hk
    generalize hnp : (⟨k, hk⟩ : Slot) = np at h
    split at h
    · rename_i hunused
      have hkind : (s.core np).kind = .unused := by simp [Sys.core, Proc.core, hunused, State.kind]
      have hne : p ≠ np := by
        rintro rfl
        rw [hrun] at hunused; cases hunused
      split at h
      · cases h
        have hlt : s.calls + 1 < 2 ^ 31 := hcalls
        have hpid : s.nextpid = (s.calls : Int) + 1 := by rw [inv.nextpid, if_neg (Nat.ne_of_lt hlt)]
        exact inv.allocSlot hkind hne hlt ((inv.table.slot np).unused hkind) (Or.inr rfl)
          (inv.table.alloc hkind rfl hpid rfl) (Or.inr ⟨rfl, rfl⟩)
      · cases h
        exact inv.allocSlot hkind hne hcalls rfl (Or.inl rfl) (inv.table.free hkind rfl rfl) (Or.inl rfl)
    · cases h
      exact inv.goto (.of (by simp [Pc.locked]) (by simp [Pc.exiting]) rfl (by simp [Pc.cleared]))
  · cases h
    exact inv.goto .user

theorem Inv.setSlot {i : Slot} {x : Proc} {c : Pc} (inv : Inv s) (hpc : x.pc = (s.proc i).pc)
    (htable : Table (Function.update s.core i x.core) s.initproc s.calls s.hist)
    (hchild : ∀ q, q ≠ p → (s.proc q).pc.child = some i → x.core.kind = .used)
    (hcleared : ∀ q, q ≠ p → i.val < (s.proc q).pc.cleared → x.parent ≠ some q)
    (hp : Here s ((s.set i x).goto p c) p c) : Inv ((s.set i x).goto p c) := by
  have hcore : ((s.set i x).goto p c).core = Function.update s.core i x.core := by rw [core_goto, core_set]
  refine ⟨by rw [hcore]; exact htable, ?_, inv.nextpid⟩
  refine inv.ctl.step (p := p) rfl (fun q hq => Or.inl ?_) (fun _ _ => id) (fun q np hqp hq => ?_)
    (fun q j hqp hj => ?_) ?_
  · rw [goto_ne _ _ hq]; exact set_pc hpc q
  · rw [hcore]
    rcases eq_or_ne np i with rfl | hni
    · rw [Function.update_self]; exact hchild q hqp hq
    · rw [Function.update_of_ne hni]; exact inv.ctl.child q np hq
  · rw [hcore]
    rcases eq_or_ne j i with rfl | hji
    · rw [Function.update_self]; exact hcleared q hqp hj
    · rw [Function.update_of_ne hji]; exact inv.ctl.cleared q j hj
  · rw [goto_self]; exact hp

theorem inv_forked {np : Slot} {mem : Bool} (inv : Inv s) (hrun : (s.proc p).state = .running)
    (hpc : (s.proc p).pc = .forked np) (h : runPc s p mem (.forked np) = .ok t) : Inv t := by
  simp only [runPc] at h
  split at h
  · rename_i hfree
    cases h
    have hused : (s.core np).kind = .used := inv.ctl.child p np (by rw [hpc]; rfl)
    have hlive := Inv.live_of_running hrun
    refine inv.setSlot rfl (inv.table.setParent (by simp [hused]) hlive) (fun _ _ _ => hused) (fun q hqp _ he => ?_) ?_
    · cases he; exact hqp rfl
    · refine ⟨by simp [Pc.locked], by simp [Pc.exiting], fun np' hn => ?_, by simp [Pc.cleared]⟩
      cases hn
      rw [core_goto, core_set, Function.update_self]
      exact ⟨hused, fun q hqp hq => hqp (inv.ctl.inj q p np hq (by rw [hpc]; rfl))⟩
  · cases h

theorem inv_parented {np : Slot} {mem : Bool} (inv : Inv s) (hpc : (s.proc p).pc = .parented np)
    (h : runPc s p mem (.parented np) = .ok t) : Inv t := by
  cases h
  have hused : (s.core np).kind = .used := inv.ctl.child p np (by rw [hpc]; rfl)
  refine inv.setSlot rfl (inv.table.start hused) (fun q hqp hq => ?_) (fun q _ hq => ?_) .user
  · exact absurd (inv.ctl.inj q p np hq (by rw [hpc]; rfl)) hqp
  · exact inv.ctl.cleared q np hq

theorem inv_exitReparent {status : Int} {k : Nat} {mem : Bool} (inv : Inv s) (hpc : (s.proc p).pc = .exitReparent status k)
    (h : runPc s p mem (.exitReparent status k) = .ok t) : Inv t := by
  have hlock : s.waitLock = some p := inv.ctl.lock p (by rw [hpc]; rfl)
  have hinit : p ≠ s.initproc := inv.ctl.exiting p (by rw [hpc]; rfl)
  have hcleared : ∀ i : Slot, i.val < k → (s.core i).parent ≠ some p := fun i hi =>
    inv.ctl.cleared p i (by rw [hpc]; exact hi)
  simp only [runPc] at h
  split at h
  · rename_i hk
    split at h
    · rename_i hpar
      cases h
      have hused : (s.core ⟨k, hk⟩).kind ≠ .unused := fun hu => by
        have := (inv.table.slot _).unused hu
        rw [show (s.core ⟨k, hk⟩).parent = some p from hpar] at this
        cases this
      refine inv.setSlot rfl (inv.table.setParent hused inv.table.init) (fun q _ hq => inv.ctl.child q _ hq)
        (fun q hqp hq he => ?_) (.of (fun _ => hlock) (fun _ => hinit) rfl fun i hi => ?_)
      · -- init does not scan for children while `p` holds the lock
        cases he
        have := inv.ctl.lock _ (Pc.locked_of_cleared hq)
        rw [hlock] at this
        exact hinit (Option.some.inj this)
      · rw [core_goto, core_set]
        rcases eq_or_ne i ⟨k, hk⟩ with rfl | hik
        · rw [Function.update_self]
          intro he
          cases he
          exact hinit rfl
        · rw [Function.update_of_ne hik]
          have hne : i.val ≠ k := fun he => hik (Fin.ext he)
          exact hcleared i (by simp only [Pc.cleared] at hi; omega)
    · rename_i hpar
      cases h
      refine inv.goto (.of (fun _ => hlock) (fun _ => hinit) rfl fun i hi => ?_)
      rw [core_goto]
      rcases Nat.lt_succ_iff_lt_or_eq.mp hi with hi | hi
      · exact hcleared i hi
      · rw [show i = ⟨k, hk⟩ from Fin.ext hi]; exact hpar
  · rename_i hk
    cases h
    refine inv.goto (.of (fun _ => hlock) (fun _ => hinit) rfl fun i _ => ?_)
    rw [core_goto]
    exact hcleared i (by have := i.isLt; omega)

theorem Inv.wakeRound {c c' : Pc} {j : Slot} {chan : Option Chan} (inv : Inv s) (hpc : (s.proc p).pc = c)
    (hlocked : c.locked = true) (hexit : c.exiting = true) (hchild : c'.child = none) (hcleared : c'.cleared = c.cleared) :
    Inv ((s.wakeup p j chan).goto p c') := by
  have hcore : ((s.wakeup p j chan).goto p c').core = s.core := by rw [core_goto, core_wakeup]
  have hsame : (s.wakeup p j chan).waitLock = s.waitLock ∧ (s.wakeup p j chan).initproc = s.initproc ∧
      (s.wakeup p j chan).calls = s.calls ∧ (s.wakeup p j chan).nextpid = s.nextpid ∧
      (s.wakeup p j chan).hist = s.hist := by
    unfold Sys.wakeup
    split <;> exact ⟨rfl, rfl, rfl, rfl, rfl⟩
  obtain ⟨h1, h2, h3, h4, h5⟩ := hsame
  refine inv.quiet (p := p) hcore h2 h3 h4 h5 (fun q hq => ?_) (fun q _ hq => h1.trans hq) ?_
  · rw [goto_ne _ _ hq, wakeup_pc]
  · rw [goto_self]
    refine .of (fun _ => h1.trans (inv.ctl.lock p (by rw [hpc]; exact hlocked)))
      (fun _ => h2 ▸ inv.ctl.exiting p (by rw [hpc]; exact hexit)) hchild fun i hi => ?_
    rw [hcore]
    exact inv.ctl.cleared p i (by rw [hpc, ← hcleared]; exact hi)

theorem Inv.proceed {c c' : Pc} (inv : Inv s) (hpc : (s.proc p).pc = c) (hlocked : c.locked = true)
    (hexit : c'.exiting = true → c.exiting = true) (hchild : c'.child = none)
    (hcleared : ∀ i : Slot, i.val < c'.cleared → i.val < c.cleared) : Inv (s.goto p c') := by
  refine inv.goto (.of (fun _ => inv.ctl.lock p (by rw [hpc]; exact hlocked)) (fun h => ?_) hchild fun i hi => ?_)
  · exact inv.ctl.exiting p (by rw [hpc]; exact hexit h)
  · rw [core_goto]
    exact inv.ctl.cleared p i (by rw [hpc]; exact hcleared i hi)

theorem inv_exitWakeInit {status : Int} {k j : Nat} {mem : Bool} (inv : Inv s)
    (hpc : (s.proc p).pc = .exitWakeInit status k j) (h : runPc s p mem (.exitWakeInit status k j) = .ok t) : Inv t := by
  simp only [runPc] at h
  split at h
  · cases h
    exact inv.wakeRound hpc rfl rfl rfl rfl
  · cases h
    exact inv.proceed hpc rfl (fun _ => rfl) rfl fun _ hi => hi

theorem inv_exitWakeParent {status : Int} {j : Nat} {mem : Bool} (inv : Inv s)
    (hpc : (s.proc p).pc = .exitWakeParent status j) (h : runPc s p mem (.exitWakeParent status j) = .ok t) : Inv t := by
  simp only [runPc] at h
  split at h
  · cases h
    exact inv.wakeRound hpc rfl rfl rfl rfl
  · cases h
    exact inv.proceed hpc rfl (fun _ => rfl) rfl fun _ hi => hi

theorem inv_exitZombie {status : Int} {mem : Bool} (inv : Inv s) (hrun : (s.proc p).state = .running)
    (hpc : (s.proc p).pc = .exitZombie status) (h : runPc s p mem (.exitZombie status) = .ok t) : Inv t := by
  cases h
  have hlock : s.waitLock = some p := inv.ctl.lock p (by rw [hpc]; rfl)
  have hlive := Inv.live_of_running hrun
  have hkids : ∀ i, (s.core i).parent ≠ some p := fun i => inv.ctl.cleared p i (by rw [hpc]; exact i.isLt)
  have hcore : ((s.set p ((s.proc p).die status)).release.record (.exited (s.proc p).pid status)).core =
      Function.update s.core p { s.core p with kind := .zombie, xstate := status } := by
    rw [core_record, core_release, core_set]; rfl
  refine ⟨?_, ?_, inv.nextpid⟩
  · rw [hcore]
    exact inv.table.die hlive (inv.ctl.exiting p (by rw [hpc]; rfl)) hkids
  · refine inv.ctl.step (p := p) rfl (fun q hq => Or.inl (congrArg Proc.pc (set_ne s _ hq))) (fun q hqp hq => ?_)
      (fun q np _ hq => ?_) (fun q i _ hi => ?_) ?_
    · rw [hlock] at hq
      exact absurd (Option.some.inj hq).symm hqp
    · have hused := inv.ctl.child q np hq
      have hnp : np ≠ p := by
        rintro rfl
        rw [hlive] at hused; cases hused
      rw [hcore, Function.update_of_ne hnp]
      exact hused
    · rw [hcore]
      rcases eq_or_ne i p with rfl | hip
      · rw [Function.update_self]; exact inv.ctl.cleared q i hi
      · rw [Function.update_of_ne hip]; exact inv.ctl.cleared q i hi
    · rw [show (((s.set p ((s.proc p).die status)).release.record (.exited (s.proc p).pid status)).proc p).pc = .dead from
        congrArg Proc.pc (set_self s p _)]
      exact .of (by simp [Pc.locked]) (by simp [Pc.exiting]) rfl (by simp [Pc.cleared])

theorem Inv.lock {c : Pc} (inv : Inv s) (hfree : s.waitLock = none) (hexit : c.exiting = true → p ≠ s.initproc)
    (hchild : c.child = none) (hcleared : c.cleared = 0) : Inv ((s.acquire p).goto p c) := by
  refine inv.quiet (p := p) (by rw [core_goto, core_acquire]) rfl rfl rfl rfl (fun q hq => by rw [goto_ne _ _ hq]; rfl)
    (fun q _ hq => ?_) ?_
  · rw [hfree] at hq; cases hq
  · rw [goto_self]
    exact .of (fun _ => rfl) hexit hchild (by rw [hcleared]; simp)

theorem Inv.unlock (inv : Inv s) (hlock : s.waitLock = some p) : Inv (s.goto p .user).release := by
  refine inv.quiet (p := p) (by rw [core_release, core_goto]) rfl rfl rfl rfl
    (fun q hq => congrArg Proc.pc (goto_ne s _ hq)) (fun q hqp hq => ?_) ?_
  · rw [hlock] at hq
    exact absurd (Option.some.inj hq).symm hqp
  · rw [show ((s.goto p .user).release.proc p).pc = .user from goto_self ..]
    exact .user

theorem inv_reap {i : Slot} {addr : Bool} (inv : Inv s) (hlock : s.waitLock = some p)
    (hpar : (s.proc i).parent = some p) (hz : (s.proc i).state = .zombie) :
    Inv (((s.set i (s.proc i).freeproc).goto p .user).release.record
      (.reaped p (s.proc i).parent (s.proc i).pid addr (if addr then some (s.proc i).xstate else none))) := by
  have hkind : (s.core i).kind = .zombie := by simp [Sys.core, Proc.core, hz, State.kind]
  have hcore : (((s.set i (s.proc i).freeproc).goto p .user).release.record
      (.reaped p (s.proc i).parent (s.proc i).pid addr (if addr then some (s.proc i).xstate else none))).core =
      Function.update s.core i (s.proc i).freeproc.core := by
    rw [core_record, core_release, core_goto, core_set]
  refine ⟨?_, ?_, inv.nextpid⟩
  · rw [hcore]
    exact inv.table.reap hkind hpar rfl rfl
  · refine inv.ctl.step (p := p) rfl (fun q hq => Or.inl ?_) (fun q hqp hq => ?_) (fun q np _ hq => ?_)
      (fun q j _ hj => ?_) ?_
    · exact (congrArg Proc.pc (goto_ne (s.set i _) _ hq)).trans (set_pc (x := (s.proc i).freeproc) rfl q)
    · rw [hlock] at hq
      exact absurd (Option.some.inj hq).symm hqp
    · have hused := inv.ctl.child q np hq
      have hnp : np ≠ i := by
        rintro rfl
        rw [hkind] at hused; cases hused
      rw [hcore, Function.update_of_ne hnp]
      exact hused
    · rw [hcore]
      rcases eq_or_ne j i with rfl | hji
      · rw [Function.update_self]; exact nofun
      · rw [Function.update_of_ne hji]; exact inv.ctl.cleared q j hj
    · rw [show ((((s.set i (s.proc i).freeproc).goto p .user).release.record _).proc p).pc = .user from goto_self ..]
      exact .user

theorem inv_waitScan {addr havekids : Bool} {k : Nat} {mem : Bool} (inv : Inv s)
    (hpc : (s.proc p).pc = .waitScan addr k havekids) (h : runPc s p mem (.waitScan addr k havekids) = .ok t) : Inv t := by
  have hlock : s.waitLock = some p := inv.ctl.lock p (by rw [hpc]; rfl)
  simp only [runPc] at h
  split at h
  · rename_i hk
    split at h
    · rename_i hpar
      split at h
      · rename_i hz
        split at h
        · cases h; exact inv.unlock hlock
        · cases h; exact inv_reap inv hlock hpar hz
      · cases h
        exact inv.proceed hpc rfl (by simp [Pc.exiting]) rfl (by simp [Pc.cleared])
    · rename_i hpar
      cases h
      refine inv.goto (.of (fun _ => hlock) (by simp [Pc.exiting]) rfl fun i hi => ?_)
      rw [core_goto]
      cases havekids with
      | true => simp [Pc.cleared] at hi
      | false =>
        rcases Nat.lt_succ_iff_lt_or_eq.mp hi with hi | hi
        · exact inv.ctl.cleared p i (by rw [hpc]; exact hi)
        · rw [show i = ⟨k, hk⟩ from Fin.ext hi]; exact hpar
  · rename_i hk
    split at h
    · rename_i hnone
      cases h
      subst hnone
      have hkids : ∀ i, (s.core i).parent ≠ some p := fun i => inv.ctl.cleared p i (by
        rw [hpc]
        exact Nat.lt_of_lt_of_le i.isLt (Nat.le_of_not_lt hk))
      have hu := inv.unlock hlock
      have hcore : ((s.goto p .user).release.record (.childless p fun q => (s.proc q).parent)).core = s.core := by
        rw [core_record, core_release, core_goto]
      exact ⟨hcore ▸ inv.table.childless hkids, ⟨hu.ctl.lock, hu.ctl.exiting, hu.ctl.child, hu.ctl.inj, hu.ctl.cleared⟩, hu.nextpid⟩
    · split at h
      · cases h; exact inv.unlock hlock
      · cases h
        exact inv.proceed hpc rfl (by simp [Pc.exiting]) rfl (by simp [Pc.cleared])

theorem inv_waitSleep {addr : Bool} {mem : Bool} (inv : Inv s) (hrun : (s.proc p).state = .running)
    (hpc : (s.proc p).pc = .waitSleep addr) (h : runPc s p mem (.waitSleep addr) = .ok t) : Inv t := by
  cases h
  have hlock : s.waitLock = some p := inv.ctl.lock p (by rw [hpc]; rfl)
  refine inv.quiet (p := p) ?_ rfl rfl rfl rfl (fun q hq => congrArg Proc.pc (set_ne s _ hq)) (fun q hqp hq => ?_) ?_
  · rw [core_release]
    exact core_set_same (by simp [Proc.sleepOn, Proc.core, hrun, State.kind])
  · rw [hlock] at hq
    exact absurd (Option.some.inj hq).symm hqp
  · rw [show ((s.set p ((s.proc p).sleepOn (.proc p) (.waitAsleep addr))).release.proc p).pc = .waitAsleep addr from
      congrArg Proc.pc (set_self s p _)]
    exact .of (by simp [Pc.locked]) (by simp [Pc.exiting]) rfl (by simp [Pc.cleared])

theorem Inv.change {x : Proc} (inv : Inv s) (hcore : x.core = (s.proc p).core)
    (hp : Here s (s.set p x) p x.pc) : Inv (s.set p x) :=
  inv.quiet (core_set_same hcore) rfl rfl rfl rfl (fun q hq => by rw [set_ne s x hq]) (fun _ _ => id)
    (by rw [set_self]; exact hp)

theorem Inv.change_same {x : Proc} (inv : Inv s) (hcore : x.core = (s.proc p).core) (hpc : x.pc = (s.proc p).pc) :
    Inv (s.set p x) :=
  inv.change hcore (hpc ▸ inv.ctl.here rfl rfl (core_set_same hcore))

theorem inv_kill {pid : Int} {k : Nat} {mem : Bool} (inv : Inv s) (h : runPc s p mem (.kill pid k) = .ok t) : Inv t := by
  have goes : ∀ k, Inv (s.goto p (.kill pid k)) := fun k =>
    inv.goto (.of (by simp [Pc.locked]) (by simp [Pc.exiting]) rfl (by simp [Pc.cleared]))
  simp only [runPc] at h
  split at h
  · split at h
    · cases h
      exact (inv.change_same (core_killIt _) rfl).goto .user
    · cases h; exact goes _
  · cases h; exact inv.goto .user

theorem inv_run {mem : Bool} (inv : Inv s) (hrun : (s.proc p).state = .running) (hcalls : t.calls < 2 ^ 31)
    (h : runPc s p mem (s.proc p).pc = .ok t) : Inv t := by
  cases hpc : (s.proc p).pc with
  | forkScan k => exact inv_forkScan inv hrun hcalls (hpc ▸ h)
  | forked np => exact inv_forked inv hrun hpc (hpc ▸ h)
  | parented np => exact inv_parented inv hpc (hpc ▸ h)
  | exitEnter status =>
    rw [hpc] at h
    simp only [runPc] at h
    split at h
    · rename_i hfree
      cases h
      exact inv.lock hfree (fun _ => inv.ctl.exiting p (by rw [hpc]; rfl)) rfl rfl
    · cases h
  | exitReparent status k => exact inv_exitReparent inv hpc (hpc ▸ h)
  | exitWakeInit status k j => exact inv_exitWakeInit inv hpc (hpc ▸ h)
  | exitWakeParent status j => exact inv_exitWakeParent inv hpc (hpc ▸ h)
  | exitZombie status => exact inv_exitZombie inv hrun hpc (hpc ▸ h)
  | waitEnter addr =>
    rw [hpc] at h
    simp only [runPc] at h
    split at h
    · rename_i hfree
      cases h
      exact inv.lock hfree (by simp [Pc.exiting]) rfl rfl
    · cases h
  | waitScan addr k havekids => exact inv_waitScan inv hpc (hpc ▸ h)
  | waitSleep addr => exact inv_waitSleep inv hrun hpc (hpc ▸ h)
  | kill pid k => exact inv_kill inv (hpc ▸ h)
  | user | dead | waitAsleep addr | asleep => rw [hpc] at h; cases h

theorem inv_call {c : Call} (inv : Inv s) (hrun : (s.proc p).state = .running) (h : enter s p c = .ok t) : Inv t := by
  cases c with
  | exit status =>
    simp only [enter] at h
    split at h
    · cases h
    · rename_i hinit
      cases h
      exact inv.goto (.of (by simp [Pc.locked]) (fun _ => hinit) rfl (by simp [Pc.cleared]))
  | sleep n =>
    cases h
    refine inv.change (by simp [Proc.sleepOn, Proc.core, hrun, State.kind]) ?_
    exact .of (by simp [Proc.sleepOn, Pc.locked]) (by simp [Proc.sleepOn, Pc.exiting]) rfl
      (by simp [Proc.sleepOn, Pc.cleared])
  | fault => cases h; exact inv.change_same rfl rfl
  | fork | wait addr | kill pid =>
    cases h
    exact inv.goto (.of (by simp [Pc.locked]) (by simp [Pc.exiting]) rfl (by simp [Pc.cleared]))

theorem inv_schedule (inv : Inv s) (hrun : (s.proc p).state = .runnable) : Inv (s.set p (s.proc p).resume) := by
  have hcore : (s.proc p).resume.core = (s.proc p).core := by
    unfold Proc.resume
    split <;> simp [Proc.core, hrun, State.kind]
  have hpc : (s.proc p).resume.pc = (s.proc p).pc ∨ (s.proc p).resume.pc = .user ∨
      ∃ addr, (s.proc p).resume.pc = .waitEnter addr := by
    unfold Proc.resume
    split <;> simp
  refine inv.change hcore ?_
  rcases hpc with hpc | hpc | ⟨addr, hpc⟩ <;> rw [hpc]
  · exact inv.ctl.here rfl rfl (core_set_same hcore)
  · exact .user
  · exact .of (by simp [Pc.locked]) (by simp [Pc.exiting]) rfl (by simp [Pc.cleared])

theorem inv_step {a : Action} (inv : Inv s) (hcalls : t.calls < 2 ^ 31) (h : step s a = .ok t) : Inv t := by
  cases a with
  | schedule p =>
    simp only [step] at h
    split at h
    · rename_i hrun; cases h; exact inv_schedule inv hrun
    · cases h
  | yield p =>
    simp only [step] at h
    split at h
    · rename_i hrun
      cases h
      exact inv.change_same (by simp [Proc.setState, Proc.core, hrun.1, State.kind]) rfl
    · cases h
  | call p c =>
    simp only [step] at h
    split at h
    · rename_i hrun; exact inv_call inv hrun.1 h
    · cases h
  | run p mem =>
    simp only [step] at h
    split at h
    · rename_i hrun; exact inv_run inv hrun hcalls h
    · cases h
  | wakeup n p =>
    cases h
    refine inv.change_same (core_wake ..) ?_
    unfold Proc.wake
    split <;> rfl

theorem calls_runPc {mem : Bool} {c : Pc} (h : runPc s p mem c = .ok t) : s.calls ≤ t.calls := by
  have hwake : ∀ j chan, (s.wakeup p j chan).calls = s.calls := fun j chan => by
    unfold Sys.wakeup
    split <;> rfl
  cases c with
  | forkScan k =>
    simp only [runPc] at h
    split at h
    · split at h
      · split at h <;> cases h <;> exact Nat.le_succ _
      · cases h; exact Nat.le_refl _
    · cases h; exact Nat.le_refl _
  | exitWakeInit status k j =>
    simp only [runPc] at h
    split at h <;> cases h
    · exact Nat.le_of_eq (hwake ..).symm
    · exact Nat.le_refl _
  | exitWakeParent status j =>
    simp only [runPc] at h
    split at h <;> cases h
    · exact Nat.le_of_eq (hwake ..).symm
    · exact Nat.le_refl _
  | waitScan addr k havekids =>
    simp only [runPc] at h
    split at h
    · split at h
      · split at h
        · split at h <;> cases h <;> exact Nat.le_refl _
        · cases h; exact Nat.le_refl _
      · cases h; exact Nat.le_refl _
    · split at h
      · cases h; exact Nat.le_refl _
      · split at h <;> cases h <;> exact Nat.le_refl _
  | exitReparent status k | kill pid k =>
    simp only [runPc] at h
    split at h
    · split at h <;> cases h <;> exact Nat.le_refl _
    · cases h; exact Nat.le_refl _
  | forked np | exitEnter status | waitEnter addr =>
    simp only [runPc] at h
    split at h <;> cases h
    exact Nat.le_refl _
  | parented np | exitZombie status | waitSleep addr => cases h; exact Nat.le_refl _
  | user | dead | waitAsleep addr | asleep => cases h

theorem calls_step {a : Action} (h : step s a = .ok t) : s.calls ≤ t.calls := by
  cases a with
  | run p mem =>
    simp only [step] at h
    split at h
    · exact calls_runPc h
    · cases h
  | call p c =>
    simp only [step] at h
    split at h
    · cases c with
      | exit status => simp only [enter] at h; split at h <;> cases h; exact Nat.le_refl _
      | _ => cases h; exact Nat.le_refl _
    · cases h
  | schedule p | yield p => simp only [step] at h; split at h <;> cases h; exact Nat.le_refl _
  | wakeup n p => cases h; exact Nat.le_refl _

theorem inv_reach {ok : Sys → Action → Prop} (h : Reach Init step ok s) : s.calls < 2 ^ 31 → Inv s :=
  h.invariant (I := fun s => s.calls < 2 ^ 31 → Inv s) (fun _ hi _ => inv_init hi) fun _ _ _ inv _ hs hcalls =>
    inv_step (inv (Nat.lt_of_le_of_lt (calls_step hs) hcalls)) hcalls hs

/-- With fewer than 2^31 calls of `allocpid`: pids are distinct; a parent is neither free nor a zombie; every pid
    exits at most once and is reported by at most one `wait`, of its parent, with its status; and `wait` misses no
    child. -/
theorem process_tree (h : Reach Init step (fun _ _ => True) s) (hcalls : s.calls < 2 ^ 31) :
    (∀ i j, (s.proc i).state ≠ .unused → (s.proc j).state ≠ .unused → (s.proc i).pid = (s.proc j).pid → i = j) ∧
    (∀ i q, (s.proc i).parent = some q → (s.proc q).state ≠ .unused ∧ (s.proc q).state ≠ .zombie) ∧
    (s.hist.filterMap Event.exitPid).Nodup ∧ (s.hist.filterMap Event.reapPid).Nodup ∧
    (∀ waiter parent pid addr copied, .reaped waiter parent pid addr copied ∈ s.hist →
      parent = some waiter ∧ ∃ status, .exited pid status ∈ s.hist ∧ copied = if addr then some status else none) ∧
    (∀ waiter parents, .childless waiter parents ∈ s.hist → ∀ q, parents q ≠ some waiter) := by
  obtain ⟨table, -, -⟩ := inv_reach h hcalls
  have hkind : ∀ i, (s.proc i).state ≠ .unused → (s.core i).kind ≠ .unused := fun i hi hk => by
    simp only [Sys.core, Proc.core] at hk
    cases hs : (s.proc i).state <;> simp_all [State.kind]
  refine ⟨fun i j hi hj => table.inj i j (hkind i hi) (hkind j hj), fun i q hq => ?_, table.hist.exits, table.hist.reaps,
    fun waiter parent pid addr copied he => table.hist.events _ he, fun waiter parents he => table.hist.events _ he⟩
  have hlive := table.parent i q hq
  constructor <;> intro hs <;> simp [Sys.core, Proc.core, hs, State.kind] at hlive

end

def boot : Sys where
  proc i :=
    { state := if i.val = 0 then .runnable else .unused, chan := none, killed := false, xstate := 0,
      pid := if i.val = 0 then 1 else 0, parent := none, pc := .user }
  initproc := ⟨0, zero_lt_NPROC⟩
  waitLock := none
  nextpid := 2
  calls := 1
  hist := []

theorem boot_init : Init boot where
  initState := rfl
  initPid := rfl
  unused _ hi := if_neg fun h => hi (Fin.ext h)
  parent _ := rfl
  pc _ := rfl
  waitLock := rfl
  nextpid := rfl
  calls := rfl
  hist := rfl

def Event.statusSeven : Event → Bool
  | .reaped w q pid _ copied => w = 0 && q = some 0 && pid = 2 && copied = some 7
  | _ => false

theorem process_tree_child : ∃ s : Sys, s.hist.filterMap Event.reapPid = [2] ∧
    ∃ addr status, Event.reaped 0 (some 0) 2 addr (some 7) ∈ s.hist ∧ Event.exited 2 status ∈ s.hist ∧
      some 7 = if addr then some status else none := by
  let runs (p : Slot) (k : Nat) : List Action := List.replicate k (.run p true)
  let trace : List Action := List.flatten [[.schedule 0, .call 0 .fork], runs 0 4, [.schedule 1, .call 1 (.exit 7)],
    runs 1 (1 + 65 + 65 + 1), [.call 0 (.wait true)], runs 0 3]
  have h : (run step (fun _ _ => true) boot trace).any (fun t : Sys => t.calls < 2 ^ 31 &&
      (t.hist.filterMap Event.reapPid = [2]) && t.hist.any Event.statusSeven) = true := by
    decide +kernel
  obtain ⟨t, hrun, ht⟩ := (Option.any_eq_true _ _).mp h
  simp only [Bool.and_eq_true, decide_eq_true_eq, List.any_eq_true] at ht
  obtain ⟨⟨hcalls, hreaps⟩, e, he, hm⟩ := ht
  have hreach : Reach Init step (fun _ _ => True) t := Reach.of_run (fun _ _ _ => trivial) _ (.init boot_init) hrun
  obtain ⟨-, -, -, -, hreaped, -⟩ := process_tree hreach hcalls
  cases e with
  | reaped w q pid addr copied =>
    simp only [Event.statusSeven, Bool.and_eq_true, decide_eq_true_eq] at hm
    obtain ⟨⟨⟨rfl, rfl⟩, rfl⟩, rfl⟩ := hm
    obtain ⟨-, status, hs, hc⟩ := hreaped _ _ _ _ _ he
    exact ⟨t, hreaps, addr, status, he, hs, hc⟩
  | _ => cases hm

end Xv6.ProcTable
