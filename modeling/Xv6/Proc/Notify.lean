import Xv6.Proc.Reaping

/-! No exit goes unnoticed: `exit` wakes the parent and holds `wait_lock` until the process is a zombie. -/

namespace Xv6.ProcTable
open Lib

def Proc.waiting (x : Proc) : Prop := x.state = .sleeping ∧ ∃ addr, x.pc = .waitAsleep addr

/-- The process, in `reparent`, will still call `wakeup(initproc)` for slot `p`. -/
def Pc.owes (c : Pc) (p : Slot) : Prop := ∃ status k j, c = .exitWakeInit status k j ∧ j ≤ p.val

def Sys.hasKids (s : Sys) (p : Slot) : Prop := ∃ i, (s.proc i).parent = some p

def Place (s : Sys) (p : Slot) : Pc → Prop
  | .forked np => (s.proc np).parent = none
  | .waitScan _ k kids =>
    (∀ i, i.val < k → (s.proc i).parent = some p → (s.proc i).state ≠ .zombie) ∧ (kids = true → s.hasKids p)
  | .waitSleep _ => (∀ i, (s.proc i).parent = some p → (s.proc i).state ≠ .zombie) ∧ s.hasKids p
  | .exitWakeParent _ j => ∀ q, (s.proc p).parent = some q → q.val < j → ¬(s.proc q).waiting
  | .exitZombie _ => ∀ q, (s.proc p).parent = some q → ¬(s.proc q).waiting
  | _ => True

structure Heard (s : Sys) : Prop where
  lock : ∀ p, (s.proc p).pc.locked = true → s.waitLock = some p ∧ (s.proc p).state = .running
  unused : ∀ i, (s.proc i).state = .unused → (s.proc i).parent = none
  child : ∀ p np, (s.proc p).pc.child = some np → (s.proc np).state = .used
  inj : ∀ p q np, (s.proc p).pc.child = some np → (s.proc q).pc.child = some np → p = q
  place : ∀ p, Place s p (s.proc p).pc
  chan : ∀ p, (s.proc p).waiting → (s.proc p).chan = some (.proc p)
  kids : ∀ p, (s.proc p).waiting → s.hasKids p
  heard : ∀ p i, (s.proc p).waiting → (s.proc i).parent = some p → (s.proc i).state = .zombie →
    p = s.initproc ∧ ∃ h, s.waitLock = some h ∧ (s.proc h).pc.owes p

theorem Init.heard {s : Sys} (h : Init s) : Heard s := by
  have hpc := h.pc
  have hpar := h.parent
  constructor <;> simp [hpc, hpar, Pc.locked, Pc.child, Proc.waiting, Place]

section
variable {s t : Sys} {p : Slot}

theorem proc_set (s : Sys) (i : Slot) (x : Proc) (j : Slot) : (s.set i x).proc j = if j = i then x else s.proc j :=
  Function.update_apply ..

theorem proc_goto (s : Sys) (p : Slot) (c : Pc) (j : Slot) :
    (s.goto p c).proc j = if j = p then (s.proc p).goto c else s.proc j := Function.update_apply ..

/-! ### Steps that leave parents alone -/

structure Lands (s t : Sys) (p : Slot) (c : Pc) : Prop where
  lock : c.locked = true → t.waitLock = some p ∧ (t.proc p).state = .running
  child : ∀ np, c.child = some np → (t.proc np).state = .used ∧ ∀ q, q ≠ p → (s.proc q).pc.child ≠ some np
  place : Place t p c

/-- No parent changes, nobody becomes a zombie or falls asleep in `wait`, and only `p` and a new process move. -/
structure Calm (s t : Sys) (p : Slot) : Prop where
  parent : ∀ i, (t.proc i).parent = (s.proc i).parent
  zombie : ∀ i, (t.proc i).state = .zombie → (s.proc i).state = .zombie
  unused : ∀ i, (t.proc i).state = .unused → (s.proc i).state = .unused
  waiting : ∀ i, (t.proc i).waiting → (s.proc i).waiting ∧ (t.proc i).chan = (s.proc i).chan
  pc : ∀ q, q ≠ p → (t.proc q).pc = (s.proc q).pc ∨ (s.proc q).state = .unused ∧ (t.proc q).pc = .user
  running : ∀ q, q ≠ p → (s.proc q).state = .running → (t.proc q).state = .running
  used : ∀ q np, q ≠ p → (s.proc q).pc.child = some np → (s.proc np).state = .used → (t.proc np).state = .used
  lock : ∀ q, q ≠ p → s.waitLock = some q → t.waitLock = some q
  init : t.initproc = s.initproc

theorem Calm.hasKids (hc : Calm s t p) {q : Slot} (h : s.hasKids q) : t.hasKids q := by
  obtain ⟨i, hi⟩ := h
  exact ⟨i, by rw [hc.parent i, hi]⟩

theorem Calm.place (hc : Calm s t p) {q : Slot} {c : Pc} (h : Place s q c) : Place t q c := by
  cases c with
  | forked np => exact (hc.parent np).trans h
  | waitScan addr k kids =>
    refine ⟨fun i hi hpar hz => h.1 i hi ?_ (hc.zombie i hz), fun hk => hc.hasKids (h.2 hk)⟩
    rw [← hc.parent i, hpar]
  | waitSleep addr =>
    refine ⟨fun i hpar hz => h.1 i ?_ (hc.zombie i hz), hc.hasKids h.2⟩
    rw [← hc.parent i, hpar]
  | exitWakeParent status j =>
    intro r hr hj hw
    rw [hc.parent q] at hr
    exact h r hr hj (hc.waiting r hw).1
  | exitZombie status =>
    intro r hr hw
    rw [hc.parent q] at hr
    exact h r hr (hc.waiting r hw).1
  | _ => trivial

theorem Heard.next (H : Heard s) (hc : Calm s t p) (hp : Lands s t p (t.proc p).pc)
    (howes : (s.proc p).pc.owes s.initproc → (t.proc s.initproc).waiting →
      s.waitLock = some p → t.waitLock = some p ∧ (t.proc p).pc.owes s.initproc) : Heard t where
  lock q hq := by
    rcases eq_or_ne q p with rfl | hqp
    · exact hp.lock hq
    · rcases hc.pc q hqp with h | ⟨-, h⟩ <;> rw [h] at hq
      · obtain ⟨hl, hr⟩ := H.lock q hq
        exact ⟨hc.lock q hqp hl, hc.running q hqp hr⟩
      · cases hq
  unused i hi := by rw [hc.parent i]; exact H.unused i (hc.unused i hi)
  child q np hq := by
    rcases eq_or_ne q p with rfl | hqp
    · exact (hp.child np hq).1
    · rcases hc.pc q hqp with h | ⟨-, h⟩ <;> rw [h] at hq
      · exact hc.used q np hqp hq (H.child q np hq)
      · cases hq
  inj q r np hq hr := by
    have old : ∀ {q}, q ≠ p → (t.proc q).pc.child = some np → (s.proc q).pc.child = some np := by
      intro q hqp hq
      rcases hc.pc q hqp with h | ⟨-, h⟩ <;> rw [h] at hq
      · exact hq
      · cases hq
    rcases eq_or_ne q p with rfl | hqp
    · rcases eq_or_ne r q with rfl | hrq
      · rfl
      · exact absurd (old hrq hr) ((hp.child np hq).2 r hrq)
    · rcases eq_or_ne r p with rfl | hrp
      · exact absurd (old hqp hq) ((hp.child np hr).2 q hqp)
      · exact H.inj q r np (old hqp hq) (old hrp hr)
  place q := by
    rcases eq_or_ne q p with rfl | hqp
    · exact hp.place
    · rcases hc.pc q hqp with h | ⟨-, h⟩ <;> rw [h]
      · exact hc.place (H.place q)
      · trivial
  chan q hq := by
    obtain ⟨hw, hchan⟩ := hc.waiting q hq
    rw [hchan, H.chan q hw]
  kids q hq := hc.hasKids (H.kids q (hc.waiting q hq).1)
  heard q i hq hpar hz := by
    rw [hc.parent i] at hpar
    obtain ⟨rfl, h, hl, ho⟩ := H.heard q i (hc.waiting q hq).1 hpar (hc.zombie i hz)
    refine ⟨hc.init.symm, ?_⟩
    rcases eq_or_ne h p with rfl | hhp
    · exact ⟨h, howes ho hq hl⟩
    · refine ⟨h, hc.lock h hhp hl, ?_⟩
      rcases hc.pc h hhp with hpc | ⟨hun, -⟩
      · rw [hpc]; exact ho
      · obtain ⟨status, k, j, hpc, -⟩ := ho
        rw [(H.lock h (by rw [hpc]; rfl)).2] at hun
        cases hun

theorem Calm.of_set {x : Proc} (hproc : t.proc = (s.set p x).proc) (hparent : x.parent = (s.proc p).parent)
    (hzombie : x.state = .zombie → (s.proc p).state = .zombie)
    (hunused : x.state = .unused → (s.proc p).state = .unused)
    (hwaiting : x.waiting → (s.proc p).waiting ∧ x.chan = (s.proc p).chan)
    (hused : (s.proc p).state = .used → x.state = .used)
    (hlock : ∀ q, q ≠ p → s.waitLock = some q → t.waitLock = some q) (hinit : t.initproc = s.initproc) : Calm s t p := by
  have hself : t.proc p = x := by rw [hproc, set_self]
  have hne : ∀ q, q ≠ p → t.proc q = s.proc q := fun q hq => by rw [hproc, set_ne s x hq]
  refine ⟨fun i => ?_, fun i => ?_, fun i => ?_, fun i => ?_, fun q hq => ?_, fun q hq hr => ?_, fun q np _ _ hu => ?_,
    hlock, hinit⟩
  · rcases eq_or_ne i p with rfl | hi
    · rw [hself, hparent]
    · rw [hne i hi]
  · rcases eq_or_ne i p with rfl | hi
    · rw [hself]; exact hzombie
    · rw [hne i hi]; exact id
  · rcases eq_or_ne i p with rfl | hi
    · rw [hself]; exact hunused
    · rw [hne i hi]; exact id
  · rcases eq_or_ne i p with rfl | hi
    · rw [hself]; exact hwaiting
    · rw [hne i hi]; exact fun hw => ⟨hw, rfl⟩
  · exact .inl (by rw [hne q hq])
  · rw [hne q hq, hr]
  · rcases eq_or_ne np p with rfl | hn
    · rw [hself]; exact hused hu
    · rw [hne np hn, hu]

theorem not_waiting_of_running {x : Proc} (h : x.state = .running) : ¬x.waiting := fun hw => by
  rw [hw.1] at h
  cases h

theorem Calm.of_running {x : Proc} (hproc : t.proc = (s.set p x).proc) (hrun : (s.proc p).state = .running)
    (hparent : x.parent = (s.proc p).parent) (hstate : x.state ≠ .zombie ∧ x.state ≠ .unused) (hwaiting : ¬x.waiting)
    (hlock : ∀ q, q ≠ p → s.waitLock = some q → t.waitLock = some q) (hinit : t.initproc = s.initproc) : Calm s t p :=
  .of_set hproc hparent (fun h => absurd h hstate.1) (fun h => absurd h hstate.2) (fun h => absurd h hwaiting)
    (fun h => by rw [hrun] at h; cases h) hlock hinit

structure Pc.Plain (c : Pc) : Prop where
  locked : c.locked = false
  child : c.child = none
  place : ∀ s p, Place s p c

theorem Lands.plain {c : Pc} (h : c.Plain) : Lands s t p c where
  lock hl := by rw [h.locked] at hl; cases hl
  child np hn := by rw [h.child] at hn; cases hn
  place := h.place t p

theorem owes_locked {c : Pc} {q : Slot} (h : c.owes q) : c.locked = true := by
  obtain ⟨status, k, j, rfl, -⟩ := h
  rfl

theorem Heard.free (H : Heard s) (hc : Calm s t p) (hp : Lands s t p (t.proc p).pc)
    (hfree : (s.proc p).pc.locked = false) : Heard t :=
  H.next hc hp fun ho => by rw [owes_locked ho] at hfree; cases hfree

theorem Heard.move {c : Pc} (H : Heard s) (hproc : t.proc = (s.goto p c).proc) (hrun : (s.proc p).state = .running)
    (hlock : ∀ q, q ≠ p → s.waitLock = some q → t.waitLock = some q) (hinit : t.initproc = s.initproc)
    (hp : Lands s t p c) (howes : ¬(s.proc p).pc.owes s.initproc) : Heard t := by
  refine H.next (p := p) (.of_running hproc hrun rfl ?_ (not_waiting_of_running hrun) hlock hinit) ?_
    fun ho => absurd ho howes
  · simp [Proc.goto, hrun]
  · rw [hproc, goto_self]; exact hp

theorem Heard.goto {c : Pc} (H : Heard s) (hrun : (s.proc p).state = .running) (hp : Lands s (s.goto p c) p c)
    (howes : ¬(s.proc p).pc.owes s.initproc) : Heard (s.goto p c) :=
  H.move rfl hrun (fun _ _ => id) rfl hp howes

theorem goto_state (s : Sys) (p : Slot) (c : Pc) (q : Slot) : ((s.goto p c).proc q).state = (s.proc q).state := by
  rcases eq_or_ne q p with rfl | hq
  · simp [Sys.goto, Proc.goto]
  · rw [goto_ne s c hq]

theorem goto_parent (s : Sys) (p : Slot) (c : Pc) (q : Slot) : ((s.goto p c).proc q).parent = (s.proc q).parent := by
  rcases eq_or_ne q p with rfl | hq
  · simp [Sys.goto, Proc.goto]
  · rw [goto_ne s c hq]

theorem Heard.change {x : Proc} (H : Heard s) (hpc : x.pc = (s.proc p).pc) (hparent : x.parent = (s.proc p).parent)
    (hzombie : x.state = .zombie → (s.proc p).state = .zombie)
    (hunused : x.state = .unused → (s.proc p).state = .unused)
    (hwaiting : x.waiting → (s.proc p).waiting ∧ x.chan = (s.proc p).chan)
    (hused : (s.proc p).state = .used → x.state = .used)
    (hrunning : (s.proc p).pc.locked = true → x.state = .running) : Heard (s.set p x) := by
  have hc : Calm s (s.set p x) p := .of_set rfl hparent hzombie hunused hwaiting hused (fun _ _ => id) rfl
  refine H.next hc ?_ fun ho _ hl => ⟨hl, ?_⟩
  · rw [set_self, hpc]
    refine ⟨fun hl => ⟨(H.lock p hl).1, ?_⟩, fun np hn => ⟨?_, fun q hq hqn => hq (H.inj q p np hqn hn)⟩,
      hc.place (H.place p)⟩
    · rw [set_self]; exact hrunning hl
    · have hu := H.child p np hn
      rw [proc_set]
      split
      · rename_i he; exact hused (he ▸ hu)
      · exact hu
  · rw [set_self, hpc]; exact ho

theorem Heard.free_of (H : Heard s) (h : (s.proc p).state ≠ .running) : (s.proc p).pc.locked = false := by
  by_contra hl
  exact h (H.lock p (by simpa using hl)).2

theorem heard_schedule (H : Heard s) (hrun : (s.proc p).state = .runnable) : Heard (s.set p (s.proc p).resume) := by
  have hfree := H.free_of (p := p) (by simp [hrun])
  have hstate : (s.proc p).resume.state = .running := by
    unfold Proc.resume
    split <;> rfl
  have hparent : (s.proc p).resume.parent = (s.proc p).parent := by
    unfold Proc.resume
    split <;> rfl
  have hpc : (s.proc p).resume.pc = (s.proc p).pc ∨ (s.proc p).resume.pc.Plain := by
    unfold Proc.resume
    split
    · exact .inr ⟨rfl, rfl, fun _ _ => trivial⟩
    · exact .inr ⟨rfl, rfl, fun _ _ => trivial⟩
    · exact .inl rfl
  have hwaiting := not_waiting_of_running hstate
  rcases hpc with hpc | hpc
  · refine H.change hpc hparent ?_ ?_ (fun hw => absurd hw hwaiting) ?_ fun _ => hstate
    · simp [hstate]
    · simp [hstate]
    · simp [hrun]
  · refine H.free (.of_set rfl hparent ?_ ?_ (fun hw => absurd hw hwaiting) ?_ (fun _ _ => id) rfl) ?_ hfree
    · simp [hstate]
    · simp [hstate]
    · simp [hrun]
    · rw [set_self]; exact .plain hpc

theorem heard_wake (H : Heard s) (ch : Option Chan) : Heard (s.set p ((s.proc p).wake ch)) := by
  by_cases hs : (s.proc p).state = .sleeping
  · have hfree := H.free_of (p := p) (by simp [hs])
    refine H.change ?_ ?_ ?_ ?_ ?_ ?_ (by simp [hfree])
    all_goals unfold Proc.wake
    all_goals split <;> simp_all [Proc.waiting]
  · rw [show (s.proc p).wake ch = s.proc p by simp [Proc.wake, hs]]
    rw [show s.set p (s.proc p) = s by simp [Sys.set]]
    exact H

theorem heard_killIt (H : Heard s) : Heard (s.set p (s.proc p).killIt) := by
  refine H.change rfl rfl ?_ ?_ ?_ ?_ fun hl => ?_
  · cases hs : (s.proc p).state <;> simp [Proc.killIt, hs]
  · cases hs : (s.proc p).state <;> simp [Proc.killIt, hs]
  · cases hs : (s.proc p).state <;> simp [Proc.killIt, hs, Proc.waiting]
  · cases hs : (s.proc p).state <;> simp [Proc.killIt, hs]
  · simp [Proc.killIt, (H.lock p hl).2]

theorem heard_call {c : Call} (H : Heard s) (hrun : (s.proc p).state = .running) (hpc : (s.proc p).pc = .user)
    (h : enter s p c = .ok t) : Heard t := by
  have howes : ¬(s.proc p).pc.owes s.initproc := fun ho => by
    have := owes_locked ho
    rw [hpc] at this
    cases this
  cases c with
  | exit status =>
    simp only [enter] at h
    split at h
    · cases h
    · cases h
      exact H.goto hrun (.plain ⟨rfl, rfl, fun _ _ => trivial⟩) howes
  | sleep n =>
    cases h
    refine H.free (.of_running rfl hrun rfl ⟨by simp [Proc.sleepOn], by simp [Proc.sleepOn]⟩ ?_ (fun _ _ => id) rfl) ?_
      (by rw [hpc]; rfl)
    · rintro ⟨-, addr, hw⟩
      cases hw
    · rw [set_self]; exact .plain ⟨rfl, rfl, fun _ _ => trivial⟩
  | fault =>
    cases h
    exact H.change rfl rfl id id (fun hw => ⟨hw, rfl⟩) id fun _ => hrun
  | fork | wait addr | kill pid =>
    cases h
    exact H.goto hrun (.plain ⟨rfl, rfl, fun _ _ => trivial⟩) howes

/-! ### `fork` -/

theorem not_owes {c : Pc} (hpc : (s.proc p).pc = c) (hc : ∀ status k j, c ≠ .exitWakeInit status k j) (q : Slot) :
    ¬(s.proc p).pc.owes q := by
  rintro ⟨status, k, j, h, -⟩
  exact hc status k j (hpc.symm.trans h)

theorem Heard.alloc {np : Slot} {x : Proc} {c : Pc} (H : Heard s) (hproc : t.proc = ((s.set np x).goto p c).proc)
    (hunused : (s.proc np).state = .unused) (hne : np ≠ p) (hfree : (s.proc p).pc.locked = false)
    (hrun : (s.proc p).state = .running) (hparent : x.parent = none) (hx : x.state = .used ∨ x.state = .unused)
    (hpc : x.pc = (s.proc np).pc ∨ x.pc = .user) (hlock : t.waitLock = s.waitLock) (hinit : t.initproc = s.initproc)
    (hp : Lands s t p c) : Heard t := by
  have hself : t.proc p = (s.proc p).goto c := by
    rw [hproc]
    simp [Sys.goto, proc_set, Ne.symm hne]
  have hnew : t.proc np = x := by rw [hproc, goto_ne _ _ hne, set_self]
  have hother : ∀ q, q ≠ p → q ≠ np → t.proc q = s.proc q := fun q hq hn => by
    rw [hproc, goto_ne _ _ hq, set_ne s x hn]
  have hcases : ∀ q, (q = np ∧ t.proc q = x) ∨ (q = p ∧ t.proc q = (s.proc p).goto c) ∨ (q ≠ np ∧ t.proc q = s.proc q) := by
    intro q
    rcases eq_or_ne q np with rfl | hn
    · exact .inl ⟨rfl, hnew⟩
    · rcases eq_or_ne q p with rfl | hq
      · exact .inr (.inl ⟨rfl, hself⟩)
      · exact .inr (.inr ⟨hn, hother q hq hn⟩)
  refine H.free (p := p) ⟨fun i => ?_, fun i => ?_, fun i => ?_, fun i => ?_, fun q hq => ?_, fun q hq hr => ?_,
    fun q m _ hqm hu => ?_, fun q _ hl => ?_, hinit⟩ ?_ hfree
  · rcases hcases i with ⟨rfl, h⟩ | ⟨rfl, h⟩ | ⟨-, h⟩ <;> rw [h]
    · rw [hparent, H.unused i hunused]
    · rfl
  · rcases hcases i with ⟨rfl, h⟩ | ⟨rfl, h⟩ | ⟨-, h⟩ <;> rw [h]
    · rcases hx with hx | hx <;> simp [hx]
    · exact id
    · exact id
  · rcases hcases i with ⟨rfl, h⟩ | ⟨rfl, h⟩ | ⟨-, h⟩ <;> rw [h]
    · exact fun _ => hunused
    · exact id
    · exact id
  · rcases hcases i with ⟨rfl, h⟩ | ⟨rfl, h⟩ | ⟨-, h⟩ <;> rw [h]
    · rcases hx with hx | hx <;> simp [hx, Proc.waiting]
    · exact fun hw => absurd hw (not_waiting_of_running hrun)
    · exact fun hw => ⟨hw, rfl⟩
  · rcases hcases q with ⟨rfl, h⟩ | ⟨rfl, h⟩ | ⟨-, h⟩ <;> rw [h]
    · exact hpc.imp id fun hu => ⟨hunused, hu⟩
    · exact absurd rfl hq
    · exact .inl rfl
  · rcases hcases q with ⟨rfl, h⟩ | ⟨rfl, h⟩ | ⟨-, h⟩
    · rw [hunused] at hr; cases hr
    · exact absurd rfl hq
    · rw [h, hr]
  · rcases hcases m with ⟨rfl, h⟩ | ⟨rfl, h⟩ | ⟨-, h⟩
    · rw [hunused] at hu; cases hu
    · rw [hrun] at hu; cases hu
    · rw [h, hu]
  · rw [hlock, hl]
  · rw [hself]; exact hp

theorem heard_forkScan {k : Nat} {mem : Bool} (H : Heard s) (hrun : (s.proc p).state = .running)
    (hpc : (s.proc p).pc = .forkScan k) (h : runPc s p mem (.forkScan k) = .ok t) : Heard t := by
  have howes := not_owes hpc (by simp) s.initproc
  have hfree : (s.proc p).pc.locked = false := by rw [hpc]; rfl
  simp only [runPc] at h
  split at h
  · rename_i hk
    generalize hnp : (⟨k, hk⟩ : Slot) = np at h
    split at h
    · rename_i hunused
      have hne : np ≠ p := by
        rintro rfl
        rw [hrun] at hunused; cases hunused
      split at h
      · cases h
        refine H.alloc (x := (s.proc np).alloc s.nextpid) rfl hunused hne hfree hrun (H.unused np hunused) (.inl rfl)
          (.inr rfl) rfl rfl ⟨fun hl => (by cases hl), fun m hm => ?_, ?_⟩
        · cases hm
          refine ⟨?_, fun q _ hq => ?_⟩
          · rw [goto_state, set_self]; rfl
          · rw [H.child q np hq] at hunused; cases hunused
        · change ((Sys.goto _ p _).proc np).parent = none
          rw [goto_parent, set_self]
          exact H.unused np hunused
      · cases h
        exact H.alloc (x := (s.proc np).freeproc) rfl hunused hne hfree hrun rfl (.inr rfl) (.inl rfl) rfl rfl
          (.plain ⟨rfl, rfl, fun _ _ => trivial⟩)
    · cases h
      exact H.goto hrun (.plain ⟨rfl, rfl, fun _ _ => trivial⟩) howes
  · cases h
    exact H.goto hrun (.plain ⟨rfl, rfl, fun _ _ => trivial⟩) howes

theorem Heard.alone (H : Heard s) (hpc : ∀ q, q ≠ p → (t.proc q).pc = (s.proc q).pc)
    (halone : ∀ q, q ≠ p → (s.proc q).pc.locked = false)
    (hforked : ∀ q np, q ≠ p → (s.proc q).pc = .forked np → (t.proc np).parent = none)
    (hused : ∀ q np, q ≠ p → (s.proc q).pc.child = some np → (t.proc np).state = .used)
    (hunused : ∀ i, (t.proc i).state = .unused → (t.proc i).parent = none) (hp : Lands s t p (t.proc p).pc)
    (hchan : ∀ q, (t.proc q).waiting → (t.proc q).chan = some (.proc q))
    (hkids : ∀ q, (t.proc q).waiting → t.hasKids q)
    (hheard : ∀ q i, (t.proc q).waiting → (t.proc i).parent = some q → (t.proc i).state = .zombie →
      q = t.initproc ∧ ∃ h, t.waitLock = some h ∧ (t.proc h).pc.owes q) : Heard t where
  lock q hq := by
    rcases eq_or_ne q p with rfl | hqp
    · exact hp.lock hq
    · rw [hpc q hqp, halone q hqp] at hq; cases hq
  unused := hunused
  child q np hq := by
    rcases eq_or_ne q p with rfl | hqp
    · exact (hp.child np hq).1
    · rw [hpc q hqp] at hq; exact hused q np hqp hq
  inj q r np hq hr := by
    rcases eq_or_ne q p with rfl | hqp
    · rcases eq_or_ne r q with rfl | hrq
      · rfl
      · rw [hpc r hrq] at hr
        exact absurd hr ((hp.child np hq).2 r hrq)
    · rw [hpc q hqp] at hq
      rcases eq_or_ne r p with rfl | hrp
      · exact absurd hq ((hp.child np hr).2 q hqp)
      · rw [hpc r hrp] at hr
        exact H.inj q r np hq hr
  place q := by
    rcases eq_or_ne q p with rfl | hqp
    · exact hp.place
    · have hfree := halone q hqp
      rw [hpc q hqp]
      cases hc : (s.proc q).pc with
      | forked np => exact hforked q np hqp hc
      | waitScan | waitSleep | exitWakeParent | exitZombie => rw [hc] at hfree; cases hfree
      | _ => trivial
  chan := hchan
  kids := hkids
  heard := hheard

theorem Heard.others (H : Heard s) (h : s.waitLock = none ∨ s.waitLock = some p) (q : Slot) (hq : q ≠ p) :
    (s.proc q).pc.locked = false := by
  by_contra hl
  have := (H.lock q (by simpa using hl)).1
  rcases h with h | h <;> rw [h] at this <;> cases this
  exact hq rfl

theorem Heard.setParent {i q₀ : Slot} {c : Pc} (H : Heard s)
    (hproc : t.proc = ((s.set i ((s.proc i).setParent q₀)).goto p c).proc) (hrun : (s.proc p).state = .running)
    (hlock : t.waitLock = s.waitLock) (hinit : t.initproc = s.initproc)
    (halone : s.waitLock = none ∨ s.waitLock = some p) (howes : ¬(s.proc p).pc.owes s.initproc)
    (hstate : (s.proc i).state ≠ .unused) (hold : ∀ q, (s.proc i).parent = some q → q = p)
    (hforked : ∀ q, q ≠ p → (s.proc q).pc ≠ .forked i) (hp : Lands s t p c)
    (hnew : (t.proc q₀).waiting → q₀ = s.initproc ∧ s.waitLock = some p ∧ c.owes q₀) : Heard t := by
  have hs : ∀ q, (t.proc q).state = (s.proc q).state ∧ (t.proc q).chan = (s.proc q).chan ∧
      (q ≠ i → (t.proc q).parent = (s.proc q).parent) ∧ (q ≠ p → (t.proc q).pc = (s.proc q).pc) := by
    intro q
    rw [hproc, proc_goto, proc_set]
    by_cases hq : q = p <;> by_cases hi : q = i <;> simp_all [proc_set, Proc.goto, Proc.setParent]
  have hpar : (t.proc i).parent = some q₀ := by
    rw [hproc, goto_parent, set_self]; rfl
  have hpc : (t.proc p).pc = c := by rw [hproc, goto_self]
  have hwait : ∀ q, (t.proc q).waiting → q ≠ p ∧ (s.proc q).waiting := fun q hw => by
    have hq : q ≠ p := by
      rintro rfl
      rw [Proc.waiting, (hs q).1, hrun] at hw
      cases hw.1
    rw [Proc.waiting, (hs q).1, (hs q).2.2.2 hq] at hw
    exact ⟨hq, hw⟩
  refine H.alone (p := p) (fun q hq => (hs q).2.2.2 hq) (H.others halone) (fun q np hq hf => ?_)
    (fun q np hq hc => by rw [(hs np).1]; exact H.child q np hc) (fun j hj => ?_) (hpc ▸ hp) (fun q hw => ?_) (fun q hw => ?_)
    fun q j hw hj hz => ?_
  · have hne : np ≠ i := fun he => hforked q hq (he ▸ hf)
    rw [(hs np).2.2.1 hne]
    have := H.place q
    rwa [hf] at this
  · rw [(hs j).1] at hj
    rw [(hs j).2.2.1 fun he => hstate (he ▸ hj)]
    exact H.unused j hj
  · rw [(hs q).2.1]
    exact H.chan q (hwait q hw).2
  · obtain ⟨hq, hw⟩ := hwait q hw
    obtain ⟨j, hj⟩ := H.kids q hw
    exact ⟨j, by rw [(hs j).2.2.1 fun he => hq (hold q (he ▸ hj)), hj]⟩
  · rw [hinit, hlock]
    by_cases he : j = i
    · rw [he, hpar] at hj
      cases hj
      obtain ⟨h1, h2, h3⟩ := hnew hw
      exact ⟨h1, p, h2, by rw [hpc]; exact h3⟩
    · rw [(hs j).2.2.1 he] at hj
      rw [(hs j).1] at hz
      obtain ⟨rfl, h, hl, ho⟩ := H.heard q j (hwait q hw).2 hj hz
      rcases halone with hn | hn <;> rw [hn] at hl <;> cases hl
      exact absurd ho howes

theorem heard_forked {np : Slot} {mem : Bool} (H : Heard s) (hrun : (s.proc p).state = .running)
    (hpc : (s.proc p).pc = .forked np) (h : runPc s p mem (.forked np) = .ok t) : Heard t := by
  simp only [runPc] at h
  split at h
  · rename_i hlock
    cases h
    have hnone : (s.proc np).parent = none := by have := H.place p; rwa [hpc] at this
    have hchild : (s.proc p).pc.child = some np := by rw [hpc]; rfl
    have hused : (s.proc np).state = .used := H.child p np hchild
    have hst : ∀ q, ((Sys.goto (s.set np ((s.proc np).setParent p)) p (.parented np)).proc q).state = (s.proc q).state := by
      intro q
      rw [goto_state, proc_set]
      split
      · rename_i he; rw [he]; rfl
      · rfl
    refine H.setParent rfl hrun rfl rfl (.inl hlock) (not_owes hpc (by simp) _) (by simp [hused]) (by simp [hnone])
      (fun q hq hf => hq (H.inj q p np (by rw [hf]; rfl) hchild)) ⟨fun hl => (by cases hl), fun m hm => ?_, trivial⟩ ?_
    · cases hm
      exact ⟨by rw [hst, hused], fun q hq hqn => hq (H.inj q p np hqn hchild)⟩
    · intro hw
      rw [Proc.waiting, hst, hrun] at hw
      cases hw.1
  · cases h

theorem heard_parented {np : Slot} {mem : Bool} (H : Heard s) (hrun : (s.proc p).state = .running)
    (hpc : (s.proc p).pc = .parented np) (h : runPc s p mem (.parented np) = .ok t) : Heard t := by
  cases h
  have hchild : (s.proc p).pc.child = some np := by rw [hpc]; rfl
  have hused : (s.proc np).state = .used := H.child p np hchild
  have hne : np ≠ p := fun he => by rw [he, hrun] at hused; cases hused
  have hs : ∀ q, (((s.set np ((s.proc np).setState .runnable)).goto p .user).proc q).parent = (s.proc q).parent ∧
      (((s.set np ((s.proc np).setState .runnable)).goto p .user).proc q).chan = (s.proc q).chan ∧
      (q ≠ np → (((s.set np ((s.proc np).setState .runnable)).goto p .user).proc q).state = (s.proc q).state) ∧
      (q ≠ p → (((s.set np ((s.proc np).setState .runnable)).goto p .user).proc q).pc = (s.proc q).pc) := by
    intro q
    rw [proc_goto, proc_set]
    by_cases hq : q = p <;> by_cases hi : q = np <;> simp_all [proc_set, Proc.goto, Proc.setState]
  have hnp : (((s.set np ((s.proc np).setState .runnable)).goto p .user).proc np).state = .runnable := by
    rw [goto_state, set_self]; rfl
  refine H.free (p := p) ⟨fun i => (hs i).1, fun i hi => ?_, fun i hi => ?_, fun i hi => ?_, fun q hq => .inl ((hs q).2.2.2 hq),
    fun q hq hr => ?_, fun q m hq hqm hu => ?_, fun _ _ => id, rfl⟩ ?_ (by rw [hpc]; rfl)
  · rw [(hs i).2.2.1 fun he => by rw [he, hnp] at hi; cases hi] at hi
    exact hi
  · rw [(hs i).2.2.1 fun he => by rw [he, hnp] at hi; cases hi] at hi
    exact hi
  · have hi1 : i ≠ np := fun he => by rw [Proc.waiting, he, hnp] at hi; cases hi.1
    have hi2 : i ≠ p := fun he => by rw [Proc.waiting, (hs i).2.2.1 hi1, he, hrun] at hi; cases hi.1
    rw [Proc.waiting, (hs i).2.2.1 hi1, (hs i).2.2.2 hi2] at hi
    exact ⟨hi, (hs i).2.1⟩
  · have hne' : q ≠ np := fun he => by rw [he, hused] at hr; cases hr
    rw [(hs q).2.2.1 hne', hr]
  · rw [(hs m).2.2.1 fun he => hq (H.inj q p np (he ▸ hqm) hchild), hu]
  · rw [goto_self]; exact .plain ⟨rfl, rfl, fun _ _ => trivial⟩

/-! ### `exit` -/

theorem heard_exitReparent {status : Int} {k : Nat} {mem : Bool} (H : Heard s) (hrun : (s.proc p).state = .running)
    (hpc : (s.proc p).pc = .exitReparent status k) (h : runPc s p mem (.exitReparent status k) = .ok t) : Heard t := by
  have hlock := (H.lock p (by rw [hpc]; rfl)).1
  have howes := not_owes hpc (by simp) s.initproc
  have hlands : ∀ c : Pc, c.child = none → (∀ t, Place t p c) → Lands s (s.goto p c) p c := fun c hc hplace =>
    ⟨fun _ => ⟨hlock, by rw [goto_state, hrun]⟩, fun np hn => (by rw [hc] at hn; cases hn), hplace _⟩
  simp only [runPc] at h
  split at h
  · rename_i hk
    generalize hi : (⟨k, hk⟩ : Slot) = i at h
    split at h
    · rename_i hpar
      cases h
      refine H.setParent rfl hrun rfl rfl (.inr hlock) howes (fun hu => ?_) (fun q hq => ?_) (fun q hq hf => ?_)
        ⟨fun _ => ⟨hlock, ?_⟩, fun np hn => (by cases hn), trivial⟩ fun _ => ⟨rfl, hlock, status, k, 0, rfl, Nat.zero_le _⟩
      · rw [H.unused i hu] at hpar; cases hpar
      · rw [hpar] at hq; exact (Option.some.inj hq).symm
      · have hplace := H.place q
        rw [hf] at hplace
        rw [show (s.proc i).parent = none from hplace] at hpar
        cases hpar
      · rw [goto_state, proc_set]
        split
        · rename_i he; rw [← he]; exact hrun
        · exact hrun
    · cases h
      exact H.goto hrun (hlands _ rfl fun _ => trivial) howes
  · cases h
    exact H.goto hrun (hlands _ rfl fun t q _ hj => absurd hj (Nat.not_lt_zero _)) howes

theorem wakeup_running {j : Slot} {ch : Option Chan} (hrun : (s.proc p).state = .running) :
    ((s.wakeup p j ch).proc p).state = .running := by
  unfold Sys.wakeup
  split
  · exact hrun
  · rename_i hj; rw [set_ne s _ (Ne.symm hj), hrun]

theorem not_waiting_goto {c : Pc} (hrun : (s.proc p).state = .running) : ¬((s.goto p c).proc p).waiting :=
  not_waiting_of_running (by rw [goto_state, hrun])

theorem Heard.wakeRound {j : Slot} {ch : Option Chan} {c : Pc} (H : Heard s) (hrun : (s.proc p).state = .running)
    (hlocked : (s.proc p).pc.locked = true) (hchild : c.child = none) (hplace : Place ((s.wakeup p j ch).goto p c) p c)
    (howes : (s.proc p).pc.owes s.initproc → (((s.wakeup p j ch).goto p c).proc s.initproc).waiting →
      c.owes s.initproc) : Heard ((s.wakeup p j ch).goto p c) := by
  have hwoken : Heard (s.wakeup p j ch) ∧ (∀ q, ((s.wakeup p j ch).proc q).pc = (s.proc q).pc) ∧
      ((s.wakeup p j ch).proc p).state = .running ∧ (s.wakeup p j ch).waitLock = s.waitLock ∧
      (s.wakeup p j ch).initproc = s.initproc := by
    refine ⟨?_, wakeup_pc s p j ch, ?_, ?_, ?_⟩
    · unfold Sys.wakeup
      split
      · exact H
      · exact heard_wake H ch
    · exact wakeup_running hrun
    · unfold Sys.wakeup; split <;> rfl
    · unfold Sys.wakeup; split <;> rfl
  obtain ⟨H', hpc', hrun', hlock', hinit'⟩ := hwoken
  have hlock : (s.wakeup p j ch).waitLock = some p := hlock'.trans (H.lock p hlocked).1
  refine H'.next (p := p) (.of_running rfl hrun' rfl ?_ (not_waiting_of_running hrun') (fun _ _ => id) rfl) ?_ ?_
  · simp [Proc.goto, hrun']
  · rw [goto_self]
    exact ⟨fun _ => ⟨hlock, by rw [goto_state, hrun']⟩, fun np hn => (by rw [hchild] at hn; cases hn), hplace⟩
  · rw [hpc' p, hinit', goto_self]
    exact fun ho hw hl => ⟨hl, howes ho hw⟩

theorem not_waiting_wakeup {j : Slot} (H : Heard s) (hrun : (s.proc p).state = .running) :
    ¬((s.wakeup p j (some (.proc j))).proc j).waiting := by
  intro hw
  unfold Sys.wakeup at hw
  split at hw
  · rename_i he
    rw [he] at hw
    exact not_waiting_of_running hrun hw
  · rw [set_self] at hw
    unfold Proc.wake at hw
    split at hw
    · cases hw.1
    · rename_i hne
      exact hne ⟨hw.1, H.chan j hw⟩

theorem heard_exitWakeInit {status : Int} {k j : Nat} {mem : Bool} (H : Heard s) (hrun : (s.proc p).state = .running)
    (hpc : (s.proc p).pc = .exitWakeInit status k j) (h : runPc s p mem (.exitWakeInit status k j) = .ok t) :
    Heard t := by
  have hlocked : (s.proc p).pc.locked = true := by rw [hpc]; rfl
  simp only [runPc] at h
  split at h
  · rename_i hj
    cases h
    refine H.wakeRound hrun hlocked rfl trivial fun ho hw => ⟨status, k, j + 1, rfl, ?_⟩
    obtain ⟨status', k', j', hpc', hle⟩ := ho
    rw [hpc] at hpc'
    cases hpc'
    -- the round at the slot of `initproc` wakes it
    refine Nat.lt_of_le_of_ne hle fun he => ?_
    have hinit : s.initproc = ⟨j, hj⟩ := Fin.ext he.symm
    have hne : s.initproc ≠ p := fun hp => by
      rw [hp] at hw
      exact not_waiting_goto (wakeup_running hrun) hw
    rw [goto_ne _ _ hne] at hw
    exact not_waiting_wakeup H hrun (hinit ▸ hw)
  · rename_i hj
    cases h
    refine H.goto hrun ⟨fun _ => ⟨(H.lock p hlocked).1, by rw [goto_state, hrun]⟩, fun np hn => (by cases hn), trivial⟩ ?_
    rintro ⟨status', k', j', hpc', hle⟩
    rw [hpc] at hpc'
    cases hpc'
    exact hj (Nat.lt_of_le_of_lt hle s.initproc.isLt)

theorem wakeup_parent (s : Sys) (p j : Slot) (ch : Option Chan) (q : Slot) :
    ((s.wakeup p j ch).proc q).parent = (s.proc q).parent := by
  unfold Sys.wakeup
  split
  · rfl
  · rw [proc_set]
    split
    · rename_i he
      rw [he]
      unfold Proc.wake
      split <;> rfl
    · rfl

theorem wakeup_waiting {j : Slot} {ch : Option Chan} {q : Slot} (h : ((s.wakeup p j ch).proc q).waiting) :
    (s.proc q).waiting := by
  unfold Sys.wakeup at h
  split at h
  · exact h
  · rw [proc_set] at h
    split at h
    · rename_i he
      unfold Proc.wake at h
      split at h
      · cases h.1
      · rw [he]; exact h
    · exact h

theorem goto_waiting {c : Pc} {q : Slot} (hq : q ≠ p) (hw : ((s.goto p c).proc q).waiting) : (s.proc q).waiting := by
  rwa [goto_ne s c hq] at hw

theorem heard_exitWakeParent {status : Int} {j : Nat} {mem : Bool} (H : Heard s) (hrun : (s.proc p).state = .running)
    (hpc : (s.proc p).pc = .exitWakeParent status j) (h : runPc s p mem (.exitWakeParent status j) = .ok t) :
    Heard t := by
  have hlocked : (s.proc p).pc.locked = true := by rw [hpc]; rfl
  have howes := not_owes hpc (by simp) s.initproc
  have hplace : ∀ q, (s.proc p).parent = some q → q.val < j → ¬(s.proc q).waiting := by
    have := H.place p
    rwa [hpc] at this
  simp only [runPc] at h
  split at h
  · rename_i hj
    cases h
    refine H.wakeRound hrun hlocked rfl (fun q hq hlt hw => ?_) fun ho => absurd ho howes
    rw [goto_parent, wakeup_parent] at hq
    rw [hq, Option.map_some] at hw
    by_cases hqp : q = p
    · rw [hqp] at hw
      exact not_waiting_goto (wakeup_running hrun) hw
    · have hw := goto_waiting hqp hw
      rcases Nat.lt_succ_iff_lt_or_eq.mp hlt with hlt | heq
      · exact hplace q hq hlt (wakeup_waiting hw)
      · have he : q = ⟨j, hj⟩ := Fin.ext heq
        exact not_waiting_wakeup H hrun (he ▸ hw)
  · rename_i hj
    cases h
    refine H.goto hrun ⟨fun _ => ⟨(H.lock p hlocked).1, by rw [goto_state, hrun]⟩, fun np hn => (by cases hn), ?_⟩ howes
    intro q hq hw
    rw [goto_parent] at hq
    by_cases hqp : q = p
    · rw [hqp] at hw
      exact not_waiting_goto hrun hw
    · exact hplace q hq (Nat.lt_of_lt_of_le q.isLt (Nat.le_of_not_lt hj)) (goto_waiting hqp hw)

theorem Heard.ownRecord {x : Proc} (H : Heard s) (hrun : (s.proc p).state = .running) (hlock : s.waitLock = some p)
    (howes : ∀ q, ¬(s.proc p).pc.owes q) (hproc : t.proc = (s.set p x).proc) (hparent : x.parent = (s.proc p).parent)
    (hused : x.state ≠ .unused) (hplain : x.pc.Plain) (hchan : x.waiting → x.chan = some (.proc p))
    (hkids : x.waiting → s.hasKids p)
    (hself : ∀ i, i ≠ p → x.waiting → (s.proc i).parent = some p → (s.proc i).state ≠ .zombie)
    (hzombie : x.state = .zombie → ¬x.waiting ∧ ∀ q, (s.proc p).parent = some q → ¬(s.proc q).waiting) : Heard t := by
  have hne : ∀ q, q ≠ p → t.proc q = s.proc q := fun q hq => by rw [hproc]; exact set_ne s _ hq
  have hx : t.proc p = x := by rw [hproc]; exact set_self ..
  have hpar : ∀ i, (t.proc i).parent = (s.proc i).parent := fun i => by
    by_cases hi : i = p
    · rw [hi, hx, hparent]
    · rw [hne i hi]
  refine H.alone (p := p) (fun q hq => congrArg Proc.pc (hne q hq)) (H.others (.inr hlock)) (fun q np hq hf => ?_)
    (fun q np hq hc => ?_) (fun i hi => ?_) ?_ (fun q hw => ?_) (fun q hw => ?_) fun q i hw hi hz => ?_
  · have := H.place q
    rw [hf] at this
    exact (hpar np).trans this
  · have hu := H.child q np hc
    have hnp : np ≠ p := fun he => by rw [he, hrun] at hu; cases hu
    exact (congrArg Proc.state (hne np hnp)).trans hu
  · have hip : i ≠ p := fun he => by
      rw [he, hx] at hi
      exact hused hi
    exact (hpar i).trans (H.unused i (hne i hip ▸ hi))
  · rw [hx]
    exact .plain hplain
  · by_cases hq : q = p
    · rw [hq, hx] at hw ⊢
      exact hchan hw
    · exact (congrArg Proc.chan (hne q hq)).trans (H.chan q (hne q hq ▸ hw))
  · have hold : s.hasKids q := by
      by_cases hq : q = p
      · rw [hq, hx] at hw
        exact hq ▸ hkids hw
      · exact H.kids q (hne q hq ▸ hw)
    obtain ⟨i, hi⟩ := hold
    exact ⟨i, (hpar i).trans hi⟩
  · have hi := (hpar i).symm.trans hi
    by_cases hip : i = p
    · rw [hip, hx] at hz
      obtain ⟨hawake, hnobody⟩ := hzombie hz
      by_cases hq : q = p
      · rw [hq, hx] at hw
        exact absurd hw hawake
      · exact absurd (hne q hq ▸ hw) (hnobody q (hip ▸ hi))
    · have hz : (s.proc i).state = .zombie := hne i hip ▸ hz
      by_cases hq : q = p
      · rw [hq, hx] at hw
        exact absurd hz (hself i hip hw (hq ▸ hi))
      · obtain ⟨-, h, hl, ho⟩ := H.heard q i (hne q hq ▸ hw) hi hz
        rw [hlock] at hl
        cases hl
        exact absurd ho (howes q)

theorem heard_exitZombie {status : Int} {mem : Bool} (H : Heard s) (hrun : (s.proc p).state = .running)
    (hpc : (s.proc p).pc = .exitZombie status) (h : runPc s p mem (.exitZombie status) = .ok t) : Heard t := by
  cases h
  have hplace : ∀ q, (s.proc p).parent = some q → ¬(s.proc q).waiting := by
    have := H.place p
    rwa [hpc] at this
  have hawake : ¬((s.proc p).die status).waiting := fun hw => nomatch hw.1
  exact H.ownRecord hrun (H.lock p (by rw [hpc]; rfl)).1 (not_owes hpc (by simp)) rfl rfl nofun
    ⟨rfl, rfl, fun _ _ => trivial⟩ (fun hw => absurd hw hawake) (fun hw => absurd hw hawake)
    (fun _ _ hw => absurd hw hawake) fun _ => ⟨hawake, hplace⟩

theorem heard_reap {i : Slot} {e : Event} (H : Heard s) (hrun : (s.proc p).state = .running)
    (hlock : s.waitLock = some p) (howes : ∀ q, ¬(s.proc p).pc.owes q) (hpar : (s.proc i).parent = some p)
    (hz : (s.proc i).state = .zombie) : Heard (((s.set i (s.proc i).freeproc).goto p .user).release.record e) := by
  have hip : i ≠ p := fun he => by rw [he, hrun] at hz; cases hz
  have hs : ∀ q, q ≠ i → ((Sys.goto (s.set i (s.proc i).freeproc) p .user).proc q).state = (s.proc q).state ∧
      ((Sys.goto (s.set i (s.proc i).freeproc) p .user).proc q).chan = (s.proc q).chan ∧
      ((Sys.goto (s.set i (s.proc i).freeproc) p .user).proc q).parent = (s.proc q).parent := by
    intro q hq
    rw [proc_goto, proc_set]
    by_cases hp : q = p <;> simp_all [proc_set, Proc.goto]
  have hi : (Sys.goto (s.set i (s.proc i).freeproc) p .user).proc i = (s.proc i).freeproc := by
    rw [goto_ne _ _ hip, set_self]
  have hpcs : ∀ q, q ≠ p → ((Sys.goto (s.set i (s.proc i).freeproc) p .user).proc q).pc = (s.proc q).pc := by
    intro q hq
    rw [goto_ne _ _ hq]
    exact set_pc (x := (s.proc i).freeproc) rfl q
  have hwait : ∀ q, ((Sys.goto (s.set i (s.proc i).freeproc) p .user).proc q).waiting → q ≠ p ∧ q ≠ i ∧
      (s.proc q).waiting := fun q hw => by
    have hqi : q ≠ i := fun he => by rw [he, hi] at hw; cases hw.1
    have hqp : q ≠ p := fun he => by
      rw [Proc.waiting, (hs q hqi).1, he, hrun] at hw
      cases hw.1
    rw [Proc.waiting, (hs q hqi).1, hpcs q hqp] at hw
    exact ⟨hqp, hqi, hw⟩
  refine H.alone (p := p) hpcs (H.others (.inr hlock)) (fun q np hq hf => ?_) (fun q np hq hc => ?_) (fun j hj => ?_) ?_
    (fun q hw => ?_) (fun q hw => ?_) fun q j hw hj hz' => ?_
  · have hplace := H.place q
    rw [hf] at hplace
    have hnp : np ≠ i := fun he => by
      rw [he] at hplace
      rw [show (s.proc i).parent = none from hplace] at hpar
      cases hpar
    exact (hs np hnp).2.2.trans hplace
  · have hu := H.child q np hc
    have hnp : np ≠ i := fun he => by rw [he, hz] at hu; cases hu
    exact (hs np hnp).1.trans hu
  · by_cases hji : j = i
    · rw [hji]
      exact congrArg Proc.parent hi
    · exact (hs j hji).2.2.trans (H.unused j ((hs j hji).1 ▸ hj))
  · change Lands s _ p ((Sys.goto (s.set i (s.proc i).freeproc) p .user).proc p).pc
    rw [goto_self]
    exact .plain ⟨rfl, rfl, fun _ _ => trivial⟩
  · obtain ⟨-, hqi, hw⟩ := hwait q hw
    exact (hs q hqi).2.1.trans (H.chan q hw)
  · obtain ⟨hqp, -, hw⟩ := hwait q hw
    obtain ⟨j, hj⟩ := H.kids q hw
    have hji : j ≠ i := fun he => by
      rw [he, hpar] at hj
      exact hqp (Option.some.inj hj).symm
    exact ⟨j, (hs j hji).2.2.trans hj⟩
  · have hji : j ≠ i := fun he => by
      rw [he] at hz'
      change ((Sys.goto (s.set i (s.proc i).freeproc) p .user).proc i).state = _ at hz'
      rw [hi] at hz'
      cases hz'
    obtain ⟨-, h, hl, ho⟩ := H.heard q j (hwait q hw).2.2 ((hs j hji).2.2 ▸ hj) ((hs j hji).1 ▸ hz')
    rw [hlock] at hl
    cases hl
    exact absurd ho (howes q)

theorem heard_waitScan {addr kids mem : Bool} {k : Nat} (H : Heard s) (hrun : (s.proc p).state = .running)
    (hpc : (s.proc p).pc = .waitScan addr k kids) (h : runPc s p mem (.waitScan addr k kids) = .ok t) : Heard t := by
  have hlock := (H.lock p (by rw [hpc]; rfl)).1
  have howes := not_owes (s := s) hpc (by simp)
  obtain ⟨hscan, hkids⟩ : Place s p (.waitScan addr k kids) := hpc ▸ H.place p
  have hother : ∀ q, q ≠ p → s.waitLock = some q → (none : Option Slot) = some q := fun q hq hl => by
    rw [hlock] at hl
    exact absurd (Option.some.inj hl).symm hq
  have hkept : ∀ c q, s.hasKids q → (s.goto p c).hasKids q := fun c q ⟨i, hi⟩ => ⟨i, by rw [goto_parent, hi]⟩
  have next : ∀ kids', (∀ i : Slot, i.val = k → (s.proc i).parent = some p → (s.proc i).state ≠ .zombie) →
      (kids' = true → s.hasKids p) → Heard (s.goto p (.waitScan addr (k + 1) kids')) := fun kids' hk hkids' => by
    refine H.goto hrun ⟨fun _ => ⟨hlock, by rw [goto_state, hrun]⟩, fun np hn => (by cases hn), fun i hi hpar => ?_,
      fun h => hkept _ p (hkids' h)⟩ (howes _)
    rw [goto_parent] at hpar
    rw [goto_state]
    rcases Nat.lt_succ_iff_lt_or_eq.mp hi with hi | hi
    · exact hscan i hi hpar
    · exact hk i hi hpar
  have leave : ∀ t, t.proc = (s.goto p .user).proc → t.waitLock = none → t.initproc = s.initproc → Heard t :=
    fun t hproc hl hinit => H.move hproc hrun (fun q hq hlq => by rw [hl]; exact hother q hq hlq) hinit
      (.plain ⟨rfl, rfl, fun _ _ => trivial⟩) (howes _)
  simp only [runPc] at h
  split at h
  · rename_i hk
    split at h
    · rename_i hpar
      split at h
      · rename_i hz
        split at h
        · cases h
          exact leave _ rfl rfl rfl
        · cases h
          exact heard_reap H hrun hlock howes hpar hz
      · rename_i hz
        cases h
        refine next true (fun i hi _ => ?_) fun _ => ⟨_, hpar⟩
        rw [show i = ⟨k, hk⟩ from Fin.ext hi]
        exact hz
    · rename_i hpar
      cases h
      refine next kids (fun i hi hp => ?_) hkids
      rw [show i = ⟨k, hk⟩ from Fin.ext hi] at hp
      exact absurd hp hpar
  · rename_i hk
    split at h
    · cases h
      exact leave _ rfl rfl rfl
    · rename_i hkids'
      split at h
      · cases h
        exact leave _ rfl rfl rfl
      · cases h
        refine H.goto hrun ⟨fun _ => ⟨hlock, by rw [goto_state, hrun]⟩, fun np hn => (by cases hn), fun i hpar => ?_,
          hkept _ p (hkids (by simpa using hkids'))⟩ (howes _)
        rw [goto_parent] at hpar
        rw [goto_state]
        exact hscan i (Nat.lt_of_lt_of_le i.isLt (Nat.le_of_not_lt hk)) hpar

theorem heard_waitSleep {addr mem : Bool} (H : Heard s) (hrun : (s.proc p).state = .running)
    (hpc : (s.proc p).pc = .waitSleep addr) (h : runPc s p mem (.waitSleep addr) = .ok t) : Heard t := by
  cases h
  obtain ⟨hquiet, hkids⟩ : Place s p (.waitSleep addr) := hpc ▸ H.place p
  exact H.ownRecord hrun (H.lock p (by rw [hpc]; rfl)).1 (not_owes hpc (by simp)) rfl rfl nofun
    ⟨rfl, rfl, fun _ _ => trivial⟩ (fun _ => rfl) (fun _ => hkids) (fun i _ _ hi => hquiet i hi) nofun

theorem Heard.acquire {c : Pc} (H : Heard s) (hrun : (s.proc p).state = .running) (hfree : s.waitLock = none)
    (howes : ¬(s.proc p).pc.owes s.initproc) (hchild : c.child = none) (hplace : ∀ t, Place t p c) :
    Heard ((s.acquire p).goto p c) := by
  refine H.move rfl hrun (fun q _ hl => ?_) rfl ⟨fun _ => ⟨rfl, ?_⟩, fun np hn => ?_, hplace _⟩ howes
  · rw [hfree] at hl; cases hl
  · rw [goto_state]; exact hrun
  · rw [hchild] at hn; cases hn

theorem heard_run {mem : Bool} (H : Heard s) (hrun : (s.proc p).state = .running)
    (h : runPc s p mem (s.proc p).pc = .ok t) : Heard t := by
  cases hpc : (s.proc p).pc with
  | forkScan k => exact heard_forkScan H hrun hpc (hpc ▸ h)
  | forked np => exact heard_forked H hrun hpc (hpc ▸ h)
  | parented np => exact heard_parented H hrun hpc (hpc ▸ h)
  | exitEnter status =>
    rw [hpc] at h
    simp only [runPc] at h
    split at h
    · rename_i hfree
      cases h
      exact H.acquire hrun hfree (not_owes hpc (by simp) _) rfl fun _ => trivial
    · cases h
  | exitReparent status k => exact heard_exitReparent H hrun hpc (hpc ▸ h)
  | exitWakeInit status k j => exact heard_exitWakeInit H hrun hpc (hpc ▸ h)
  | exitWakeParent status j => exact heard_exitWakeParent H hrun hpc (hpc ▸ h)
  | exitZombie status => exact heard_exitZombie H hrun hpc (hpc ▸ h)
  | waitEnter addr =>
    rw [hpc] at h
    simp only [runPc] at h
    split at h
    · rename_i hfree
      cases h
      refine H.acquire hrun hfree (not_owes hpc (by simp) _) rfl fun t => ⟨fun i hi => ?_, fun h => by cases h⟩
      exact absurd hi (Nat.not_lt_zero _)
    · cases h
  | waitScan addr k havekids => exact heard_waitScan H hrun hpc (hpc ▸ h)
  | waitSleep addr => exact heard_waitSleep H hrun hpc (hpc ▸ h)
  | kill pid k =>
    have plain : ∀ {s : Sys} {k : Nat}, Lands s (s.goto p (.kill pid k)) p (.kill pid k) :=
      .plain ⟨rfl, rfl, fun _ _ => trivial⟩
    rw [hpc] at h
    simp only [runPc] at h
    split at h
    · rename_i hk
      split at h
      · cases h
        have hpc' : ((s.set ⟨k, hk⟩ (s.proc ⟨k, hk⟩).killIt).proc p).pc = .kill pid k := by
          rw [set_pc (x := (s.proc ⟨k, hk⟩).killIt) rfl p, hpc]
        refine (heard_killIt H).goto ?_ (.plain ⟨rfl, rfl, fun _ _ => trivial⟩) (not_owes hpc' (by simp) _)
        rw [proc_set]
        split
        · rename_i he; simp [Proc.killIt, ← he, hrun]
        · exact hrun
      · cases h
        exact H.goto hrun plain (not_owes hpc (by simp) _)
    · cases h
      exact H.goto hrun (.plain ⟨rfl, rfl, fun _ _ => trivial⟩) (not_owes hpc (by simp) _)
  | user | dead | waitAsleep addr | asleep => rw [hpc] at h; cases h

theorem heard_step {a : Action} (H : Heard s) (h : step s a = .ok t) : Heard t := by
  cases a with
  | schedule p =>
    simp only [step] at h
    split at h
    · rename_i hrun; cases h; exact heard_schedule H hrun
    · cases h
  | yield p =>
    simp only [step] at h
    split at h
    · rename_i hrun
      cases h
      refine H.change rfl rfl (by simp [Proc.setState]) (by simp [Proc.setState]) ?_ (by simp [hrun.1]) fun hl => ?_
      · rintro ⟨hw, -⟩
        cases hw
      · exact absurd (H.lock p hl).1 hrun.2
    · cases h
  | call p c =>
    simp only [step] at h
    split at h
    · rename_i hrun; exact heard_call H hrun.1 hrun.2 h
    · cases h
  | run p mem =>
    simp only [step] at h
    split at h
    · rename_i hrun; exact heard_run H hrun h
    · cases h
  | wakeup n p =>
    cases h
    exact heard_wake H _

/-- When `wait_lock` is free, a process asleep in `wait` has children, and none of them is a zombie. -/
theorem no_lost_exit (h : Reach Init step (fun _ _ => True) s) (hfree : s.waitLock = none) (p : Slot)
    (hstate : (s.proc p).state = .sleeping) (hwait : ∃ addr, (s.proc p).pc = .waitAsleep addr) :
    (s.proc p).chan = some (.proc p) ∧ (∀ i, (s.proc i).parent = some p → (s.proc i).state ≠ .zombie) ∧
      ∃ i, (s.proc i).parent = some p := by
  have H : Heard s := h.invariant (fun _ => Init.heard) fun _ _ _ H _ hs => heard_step H hs
  refine ⟨H.chan p ⟨hstate, hwait⟩, fun i hi hz => ?_, H.kids p ⟨hstate, hwait⟩⟩
  obtain ⟨-, h, hl, -⟩ := H.heard p i ⟨hstate, hwait⟩ hi hz
  rw [hfree] at hl
  cases hl

theorem no_lost_exit_init : ∃ s : Sys, s.waitLock = none ∧ (s.proc 0).state = .sleeping ∧ (s.proc 1).parent = some 0 ∧
    (s.proc 1).state ≠ .zombie := by
  let trace : List Action := List.flatten [[.schedule 0, .call 0 .fork, .run 0 true, .run 0 true, .run 0 true, .run 0 true],
    [.call 0 (.wait false), .run 0 true], List.replicate (NPROC + 2) (.run 0 true)]
  have h : (run step (fun _ _ => true) boot trace).any (fun s => s.waitLock = none ∧ (s.proc 0).state = .sleeping ∧
      (s.proc 0).pc = .waitAsleep false ∧ (s.proc 1).parent = some 0) = true := by
    decide +kernel
  obtain ⟨s, hrun, hs⟩ := (Option.any_eq_true _ _).mp h
  obtain ⟨hlock, hstate, hpc, hpar⟩ := of_decide_eq_true hs
  have hmain := no_lost_exit (Reach.of_run (fun _ _ _ => trivial) _ (.init boot_init) hrun) hlock 0 hstate ⟨false, hpc⟩
  exact ⟨s, hlock, hstate, hpar, hmain.2.1 1 hpar⟩

end

end Xv6.ProcTable
