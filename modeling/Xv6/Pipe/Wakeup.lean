import Xv6.Pipe.Basic

/-! Nobody sleeps on a pipe for no reason: whoever makes a sleeper's condition false owes it a `wakeup`. `pipewrite`
    pays on every way out but one: a process that is killed between two bytes returns at once. -/

namespace Xv6.Pipe
open Lib

variable {N : Nat} {s t : Sys N} {p : Fin N}

/-- The channel of a process that has dropped `pi->lock` in `sleep` and is not off the CPU yet. -/
def Pc.dozes : Pc → Option Chan
  | .doze w => some w.chan
  | _ => none

def Proc.waits (x : Proc) (c : Chan) : Bool := x.pc.dozes = some c ∨ (x.state = .sleeping ∧ x.chan = some c)

/-- What a process that sleeps on the channel waits for has not come yet. -/
def Reason (pi : Pipe) : Chan → Prop
  | .nread => pi.isEmpty ∧ pi.writeopen = true
  | .nwrite => pi.isFull ∧ pi.readopen = true
  | .other => True

/-- `kill` does not hit a process in the loop of `pipewrite`, with more bytes to write, while somebody in `piperead`
    has still to be woken. -/
def KillsClean (s : Sys N) (a : Action N) : Prop :=
  ∀ p job, a = .kill p → (s.proc p).pc = .writing job → (job.i : Int) < job.n → ¬ s.pipe.isEmpty →
    ∀ j, (s.proc j).waits .nread = false

namespace Pc

def locked : Pc → Bool
  | .writing _ | .reading _ | .copying .. | .wakeup .. | .nap _ => true
  | _ => false

def bound : Pc → Option Chan
  | .wakeup (.full _) _ => some .nwrite
  | .nap w => some w.chan
  | _ => none

end Pc

/-- Process `h`, which holds the lock, will call `wakeup` for slot `j` on channel `c`. -/
def Owes (s : Sys N) (h : Fin N) (c : Chan) (j : Fin N) : Prop :=
  match (s.proc h).pc with
  | .writing job => c = .nread ∧ s.pipe.readopen = true ∧ s.pipe.writeopen = true ∧
      ((s.proc h).killed = false ∨ job.n ≤ job.i)
  | .copying .. => c = .nwrite
  | .wakeup after k => after.chan = c ∧ k ≤ j.val
  | _ => False

def Attended (s : Sys N) (c : Chan) (j : Fin N) : Prop :=
  Reason s.pipe c ∨ ∃ h, s.lock = some h ∧ Owes s h c j

structure Awake (s : Sys N) : Prop where
  lock : ∀ p, (s.proc p).pc.locked = true → s.lock = some p
  running : ∀ p, (s.proc p).pc.locked = true → (s.proc p).state = .running
  bound : ∀ p c, (s.proc p).pc.bound = some c → Reason s.pipe c
  waits : ∀ c j, (s.proc j).waits c = true → Attended s c j

theorem Start.awake (h : Start s) : Awake s where
  lock p hp := by rw [h.pc p] at hp; cases hp
  running p hp := by rw [h.pc p] at hp; cases hp
  bound p c hp := by rw [h.pc p] at hp; cases hp
  waits c j hj := by
    obtain ⟨h1, h2⟩ := h.chan j
    cases c <;> simp_all [Proc.waits, h.pc j, Pc.dozes, Attended, Reason]

theorem locked_of_bound {pc : Pc} {c : Chan} (h : pc.bound = some c) : pc.locked = true := by
  cases pc with
  | wakeup | nap => rfl
  | _ => cases h

structure Beside (s t : Sys N) (p : Fin N) : Prop where
  pc : ∀ q, q ≠ p → (t.proc q).pc = (s.proc q).pc
  running : ∀ q, q ≠ p → (s.proc q).state = .running → (t.proc q).state = .running
  -- if somebody else has the lock, then that process keeps it, and the pipe is as it was
  lock : ∀ q, q ≠ p → s.lock = some q → t.lock = some q ∧ t.pipe = s.pipe

structure Arrives (t : Sys N) (p : Fin N) : Prop where
  lock : (t.proc p).pc.locked = true → t.lock = some p ∧ (t.proc p).state = .running
  bound : ∀ c, (t.proc p).pc.bound = some c → Reason t.pipe c

theorem Awake.next (inv : Awake s) (hb : Beside s t p) (ha : Arrives t p)
    (hw : ∀ c j, (t.proc j).waits c = true → Attended t c j) : Awake t where
  lock q hq := by
    rcases eq_or_ne q p with rfl | hne
    · exact (ha.lock hq).1
    · rw [hb.pc q hne] at hq
      exact (hb.lock q hne (inv.lock q hq)).1
  running q hq := by
    rcases eq_or_ne q p with rfl | hne
    · exact (ha.lock hq).2
    · rw [hb.pc q hne] at hq
      exact hb.running q hne (inv.running q hq)
  bound q c hq := by
    rcases eq_or_ne q p with rfl | hne
    · exact ha.bound c hq
    · rw [hb.pc q hne] at hq
      rw [(hb.lock q hne (inv.lock q (locked_of_bound hq))).2]
      exact inv.bound q c hq
  waits := hw

theorem locked_of_owes {h j : Fin N} {c : Chan} (ho : Owes s h c j) : (s.proc h).pc.locked = true := by
  unfold Owes at ho
  split at ho
  · rename_i hpc; rw [hpc]; rfl
  · rename_i hpc; rw [hpc]; rfl
  · rename_i hpc; rw [hpc]; rfl
  · exact ho.elim

theorem dozes_of_dozing {x : Proc} (h : x.dozing = false) : x.pc.dozes = none := by
  unfold Proc.dozing at h
  unfold Pc.dozes
  split <;> simp_all

theorem not_waits {x : Proc} (hs : x.state ≠ .sleeping) (hdoze : x.dozing = false) (c : Chan) : x.waits c = false := by
  simp [Proc.waits, dozes_of_dozing hdoze, hs]

theorem Awake.aside (inv : Awake s) {x : Proc} (hs : (s.proc p).pc.locked = false) (hx : x.pc.locked = false)
    (hw : ∀ c, x.waits c = true → c = .other ∨ (s.proc p).waits c = true) : Awake (s.set p x) := by
  have hother : ∀ q, q ≠ p → (s.set p x).proc q = s.proc q := fun q hq => set_ne s x hq
  refine inv.next (p := p) ⟨fun q hq => by rw [hother q hq], fun q hq h => by rw [hother q hq, h],
    fun q _ hl => ⟨hl, rfl⟩⟩ ⟨fun h => ?_, fun c h => ?_⟩ fun c j hj => ?_
  · rw [set_self, hx] at h; cases h
  · rw [set_self] at h
    rw [locked_of_bound h] at hx; cases hx
  · have hold : c = .other ∨ (s.proc j).waits c = true := by
      rcases eq_or_ne j p with rfl | hne
      · rw [set_self] at hj; exact hw c hj
      · rw [hother j hne] at hj; exact .inr hj
    rcases hold with rfl | hold
    · exact .inl trivial
    · refine (inv.waits c j hold).imp id fun ⟨h, hl, ho⟩ => ⟨h, hl, ?_⟩
      have hne : h ≠ p := fun he => by
        rw [he] at ho
        rw [locked_of_owes ho] at hs; cases hs
      unfold Owes
      rw [hother h hne]
      exact ho

theorem Awake.unlocked (inv : Awake s) (h : (s.proc p).state ≠ .running) : (s.proc p).pc.locked = false := by
  by_contra hl
  exact h (inv.running p (by simpa using hl))

theorem awake_schedule (inv : Awake s) (hrun : (s.proc p).state = .runnable) : Awake (s.set p (s.proc p).resume) := by
  have hs := inv.unlocked (p := p) (by simp [hrun])
  refine inv.aside hs ?_ fun c hc => .inr ?_
  · unfold Proc.resume
    split
    · rfl
    · exact hs
  · cases hpc : (s.proc p).pc <;> simp_all [Proc.waits, Proc.resume, Pc.dozes]

theorem waits_wake {x : Proc} {c c' : Chan} (h : (x.wake c').waits c = true) : x.waits c = true := by
  unfold Proc.wake at h
  split at h
  · simp_all [Proc.waits]
  · exact h

theorem wake_eq {x : Proc} (h : x.state = .running) (c : Chan) : x.wake c = x := by
  simp [Proc.wake, h]

theorem set_proc (s : Sys N) (p : Fin N) : s.set p (s.proc p) = s := by
  simp [Sys.set]

theorem awake_wake (inv : Awake s) (c : Chan) : Awake (s.set p ((s.proc p).wake c)) := by
  by_cases hrun : (s.proc p).state = .running
  · rw [wake_eq hrun, set_proc]; exact inv
  · have hs := inv.unlocked hrun
    exact inv.aside hs (by rw [pc_wake]; exact hs) fun c hc => .inr (waits_wake hc)

theorem waits_killIt {x : Proc} {c : Chan} (h : x.killIt.waits c = true) : x.waits c = true := by
  cases hs : x.state <;> simp_all [Proc.waits, Proc.killIt]

theorem awake_kill_locked (inv : Awake s) (hl : (s.proc p).pc.locked = true) (hok : KillsClean s (.kill p)) :
    Awake (s.set p (s.proc p).killIt) := by
  have hrun := inv.running p hl
  have hlock := inv.lock p hl
  have hother : ∀ q, q ≠ p → (s.set p (s.proc p).killIt).proc q = s.proc q := fun q hq => set_ne s _ hq
  refine inv.next (p := p) ⟨fun q hq => by rw [hother q hq], fun q hq h => by rw [hother q hq, h],
    fun q _ h => ⟨h, rfl⟩⟩ ⟨fun _ => ⟨hlock, ?_⟩, fun c h => ?_⟩ fun c j hj => ?_
  · simp [Proc.killIt, hrun]
  · rw [set_self] at h
    exact inv.bound p c h
  · have hold : (s.proc j).waits c = true := by
      rcases eq_or_ne j p with rfl | hne
      · rw [set_self] at hj; exact waits_killIt hj
      · rw [hother j hne] at hj; exact hj
    refine (inv.waits c j hold).elim .inl fun ⟨h, hh, ho⟩ => ?_
    obtain rfl : h = p := Option.some.inj (hh.symm.trans hlock)
    cases hpc : (s.proc h).pc with
    | writing job =>
      simp only [Owes, hpc] at ho
      obtain ⟨rfl, hr, hw, -⟩ := ho
      by_cases hi : (job.i : Int) < job.n
      · refine .inl ⟨?_, hw⟩
        by_contra hne
        rw [hok h job rfl hpc hi hne j] at hold
        cases hold
      · refine .inr ⟨h, hh, ?_⟩
        simp [Owes, Proc.killIt, hpc, Sys.set, hr, hw]
        omega
    | copying n i =>
      simp only [Owes, hpc] at ho
      exact .inr ⟨h, hh, by simp [Owes, Proc.killIt, hpc, ho]⟩
    | wakeup after k =>
      simp only [Owes, hpc] at ho
      exact .inr ⟨h, hh, by simp [Owes, Proc.killIt, hpc, ho]⟩
    | _ => simp [Owes, hpc] at ho

theorem awake_kill (inv : Awake s) (hok : KillsClean s (.kill p)) : Awake (s.set p (s.proc p).killIt) := by
  cases hl : (s.proc p).pc.locked with
  | true => exact awake_kill_locked inv hl hok
  | false => exact inv.aside hl hl fun c hc => .inr (waits_killIt hc)

/-! ### The call in progress -/

theorem Awake.run (inv : Awake s) {x : Proc} (hlock : ∀ q, q ≠ p → s.lock ≠ some q)
    (hproc : t.proc = Function.update s.proc p x) (hrun : x.state = .running) (hdoze : x.dozing = false)
    (ht : x.pc.locked = true → t.lock = some p) (hbound : ∀ c, x.pc.bound = some c → Reason t.pipe c)
    (hw : ∀ c j, (s.proc j).waits c = true → Attended t c j) : Awake t := by
  have hself : t.proc p = x := by rw [hproc, Function.update_self]
  have hother : ∀ q, q ≠ p → t.proc q = s.proc q := fun q hq => by rw [hproc, Function.update_of_ne hq]
  refine inv.next (p := p) ⟨fun q hq => by rw [hother q hq], fun q hq h => by rw [hother q hq, h],
    fun q hq h => absurd h (hlock q hq)⟩ ⟨fun h => ?_, fun c h => ?_⟩ fun c j hj => ?_
  · rw [hself] at h ⊢
    exact ⟨ht h, hrun⟩
  · rw [hself] at h
    exact hbound c h
  · rcases eq_or_ne j p with rfl | hne
    · rw [hself, not_waits (by simp [hrun]) hdoze] at hj; cases hj
    · rw [hother j hne] at hj
      exact hw c j hj

theorem Awake.mine (inv : Awake s) (hlock : s.lock = some p) {c : Chan} {j : Fin N} (hj : (s.proc j).waits c = true) :
    Reason s.pipe c ∨ Owes s p c j :=
  (inv.waits c j hj).imp id fun ⟨h, hh, ho⟩ => by
    obtain rfl : h = p := Option.some.inj (hh.symm.trans hlock)
    exact ho

theorem Awake.free (inv : Awake s) (hlock : s.lock = none) {c : Chan} {j : Fin N} (hj : (s.proc j).waits c = true) :
    Reason s.pipe c :=
  (inv.waits c j hj).elim id fun ⟨h, hh, _⟩ => by rw [hlock] at hh; cases hh

theorem owes_wakeup {after : After} {k : Nat} {j : Fin N} (hpc : (t.proc p).pc = .wakeup after k) (hk : k ≤ j.val) :
    Owes t p after.chan j := by
  unfold Owes
  rw [hpc]
  exact ⟨rfl, hk⟩

theorem goto_pc (s : Sys N) (p : Fin N) (pc : Pc) : ((s.goto p pc).proc p).pc = pc := by
  rw [Sys.goto, set_self]; rfl

theorem awake_acquire (inv : Awake s) {pc : Pc} (hrun : (s.proc p).state = .running) (hlock : s.lock = none)
    (hdoze : ((s.proc p).goto pc).dozing = false) (hbound : pc.bound = none) : Awake ((s.acquire p).goto p pc) :=
  inv.run (x := (s.proc p).goto pc) (fun _ _ => by simp [hlock]) rfl hrun hdoze (fun _ => rfl)
    (fun c h => by rw [show pc.bound = some c from h] at hbound; cases hbound) fun _ _ hj => .inl (inv.free hlock hj)

theorem awake_close (inv : Awake s) (writable : Bool) (hrun : (s.proc p).state = .running) (hlock : s.lock = none) :
    Awake (((s.acquire p).close writable).goto p (.wakeup (.closed writable) 0)) := by
  refine inv.run (x := (s.proc p).goto (.wakeup (.closed writable) 0)) (fun _ _ => by simp [hlock]) rfl hrun rfl
    (fun _ => rfl) (fun c h => by cases h) fun c j hj => ?_
  by_cases hc : (After.closed writable).chan = c
  · exact .inr ⟨p, rfl, hc ▸ owes_wakeup (goto_pc ..) (Nat.zero_le _)⟩
  · -- the flag of the other end is not in the reason
    have hreason := inv.free hlock hj
    refine .inl ?_
    cases writable <;> cases c <;> simp_all [After.chan, Reason, Sys.goto, Sys.set, Sys.close, Sys.acquire, Pipe.close,
      isEmpty, isFull]

theorem awake_release (inv : Awake s) {x : Proc} {f : Bool} (hlock : s.lock = some p) (hrun : x.state = .running)
    (hx : x.pc = .user) (howes : ∀ c j, ¬ Owes s p c j) : Awake { (s.set p x).release with freed := f } :=
  inv.run (x := x) (fun _ hq h => hq (Option.some.inj (h.symm.trans hlock))) rfl hrun (by simp [Proc.dozing, hx])
    (fun h => by rw [hx] at h; cases h) (fun c h => by rw [hx] at h; cases h)
    fun c j hj => .inl ((inv.mine hlock hj).resolve_right (howes c j))

theorem awake_goto (inv : Awake s) {pc : Pc} (hlock : s.lock = some p) (hrun : (s.proc p).state = .running)
    (hdoze : ((s.proc p).goto pc).dozing = false) (hbound : ∀ c, pc.bound = some c → Reason s.pipe c)
    (howes : ∀ c j, (s.proc j).waits c = true → Owes s p c j → Owes (s.goto p pc) p c j) : Awake (s.goto p pc) :=
  inv.run (x := (s.proc p).goto pc) (fun _ hq h => hq (Option.some.inj (h.symm.trans hlock))) rfl hrun hdoze
    (fun _ => hlock) hbound fun c j hj => (inv.mine hlock hj).imp id fun ho => ⟨p, hlock, howes c j hj ho⟩

theorem awake_writeRound (inv : Awake s) {job : Job} {copy : Option UInt8} (hlock : s.lock = some p)
    (hrun : (s.proc p).state = .running) (hpc : (s.proc p).pc = .writing job) : Awake (writeRound s p copy job) := by
  have hpay : ∀ after : After, after.chan = .nread → ∀ c j, (s.proc j).waits c = true → Owes s p c j →
      Owes (s.goto p (.wakeup after 0)) p c j := fun after hchan c j _ ho => by
    simp only [Owes, hpc] at ho
    rw [ho.1, ← hchan]
    exact owes_wakeup (goto_pc ..) (Nat.zero_le _)
  unfold writeRound
  split
  · rename_i hi
    split
    · rename_i hstop
      refine awake_release inv (f := s.freed) hlock hrun rfl fun c j ho => ?_
      -- it stops since the other end is closed, or since it was killed: then it owes nothing
      simp only [Owes, hpc] at ho
      obtain ⟨-, hr, -, hk⟩ := ho
      rcases hstop with h | h
      · rw [h] at hr; cases hr
      · rcases hk with hk | hk
        · rw [hk] at h; cases h
        · omega
    · rename_i hgo
      split
      · rename_i hfull
        refine awake_goto inv hlock hrun rfl (fun c h => ?_) (hpay _ rfl)
        cases h
        exact ⟨hfull, by simpa using fun h => hgo (.inl h)⟩
      · rename_i hfull
        cases copy with
        | none => exact awake_goto inv hlock hrun rfl (fun c h => by cases h) (hpay _ rfl)
        | some ch =>
          have hmine := fun c j hj => inv.mine (c := c) (j := j) hlock hj
          refine inv.run (x := (s.proc p).goto (.writing { job with i := job.i + 1 }))
            (fun q hq h => hq (Option.some.inj (h.symm.trans hlock))) rfl hrun rfl (fun _ => hlock)
            (fun c h => by cases h) fun c j hj => ?_
          simp only [Owes, hpc] at hmine
          cases c with
          | nread =>
            have hopen : s.pipe.writeopen = true := (hmine _ j hj).elim (·.2) (·.2.2.1)
            refine .inr ⟨p, hlock, ?_⟩
            simp only [not_or, Bool.not_eq_true, Bool.not_eq_false] at hgo
            simp [Owes, Sys.goto, Sys.set, Proc.goto, Sys.put, Pipe.put, hgo, hopen]
          | nwrite =>
            -- nobody waits for room in a pipe that has room
            rcases hmine _ j hj with h | h
            · exact absurd h.1 hfull
            · cases h.1
          | other => exact .inl trivial
  · exact awake_goto inv hlock hrun rfl (fun c h => by cases h) (hpay _ rfl)

theorem awake_readRound (inv : Awake s) {n : Int} (hlock : s.lock = some p) (hrun : (s.proc p).state = .running)
    (hpc : (s.proc p).pc = .reading n) : Awake (readRound s p n) := by
  have howes : ∀ c j, ¬ Owes s p c j := fun c j ho => by simp [Owes, hpc] at ho
  unfold readRound
  split
  · rename_i hempty
    split
    · exact awake_release inv (f := s.freed) hlock hrun rfl howes
    · refine awake_goto inv hlock hrun rfl (fun c h => ?_) fun c j _ ho => absurd ho (howes c j)
      cases h
      exact hempty
  · exact awake_goto inv hlock hrun rfl (fun c h => by cases h) fun c j _ ho => absurd ho (howes c j)

theorem awake_copyRound (inv : Awake s) {n : Int} {i : Nat} {copy : Option UInt8} (hlock : s.lock = some p)
    (hrun : (s.proc p).state = .running) (hpc : (s.proc p).pc = .copying n i) : Awake (copyRound s p copy n i) := by
  have hmine := fun c j hj => inv.mine (c := c) (j := j) hlock hj
  simp only [Owes, hpc] at hmine
  unfold copyRound
  split
  · rename_i hgo
    -- nobody waits for bytes in a pipe that has some, and those who wait for room will be woken
    have htake : ∀ pc : Pc, ((s.proc p).goto pc).dozing = false → pc.bound = none →
        (∀ j, Owes (s.take.goto p pc) p .nwrite j) → Awake (s.take.goto p pc) := fun pc hdoze hbound howes => by
      refine inv.run (x := (s.proc p).goto pc) (fun q hq h => hq (Option.some.inj (h.symm.trans hlock))) rfl hrun hdoze
        (fun _ => hlock) (fun c h => by rw [show pc.bound = some c from h] at hbound; cases hbound) fun c j hj => ?_
      cases c with
      | nread =>
        rcases hmine _ j hj with h | h
        · exact absurd h.1 hgo.2
        · cases h
      | nwrite => exact .inr ⟨p, hlock, howes j⟩
      | other => exact .inl trivial
    split
    · exact htake _ rfl rfl fun j => by unfold Owes; rw [goto_pc]
    · exact htake _ rfl rfl fun j => owes_wakeup (goto_pc ..) (Nat.zero_le _)
  · refine awake_goto inv hlock hrun rfl (fun c h => by cases h) fun c j _ ho => ?_
    simp only [Owes, hpc] at ho
    rw [ho]
    exact owes_wakeup (goto_pc ..) (Nat.zero_le _)

theorem awake_pass (inv : Awake s) {after : After} {k : Fin N} (hlock : s.lock = some p)
    (hrun : (s.proc p).state = .running) (hpc : (s.proc p).pc = .wakeup after k.val)
    (hk : (s.proc k).waits after.chan = false) : Awake (s.goto p (.wakeup after (k.val + 1))) := by
  refine awake_goto inv hlock hrun rfl (fun c h => inv.bound p c ?_) fun c j hj ho => ?_
  · rw [hpc]
    cases after <;> exact h
  · simp only [Owes, hpc] at ho
    obtain ⟨rfl, hle⟩ := ho
    have hne : k.val ≠ j.val := fun he => by
      rw [Fin.ext he, hj] at hk; cases hk
    exact owes_wakeup (goto_pc ..) (by omega)

theorem awake_wakeRound (inv : Awake s) {after : After} {k : Fin N} (hlock : s.lock = some p)
    (hrun : (s.proc p).state = .running) (hpc : (s.proc p).pc = .wakeup after k.val) (hne : p ≠ k)
    (hdoze : (s.proc k).dozing = false) :
    Awake ((s.set k ((s.proc k).wake after.chan)).goto p (.wakeup after (k.val + 1))) := by
  have hp : (s.set k ((s.proc k).wake after.chan)).proc p = s.proc p := set_ne s _ hne
  refine awake_pass (awake_wake inv after.chan) hlock (by rw [hp, hrun]) (by rw [hp, hpc]) ?_
  rw [set_self]
  simp only [Proc.waits, pc_wake, dozes_of_dozing hdoze]
  by_cases h : (s.proc k).state = .sleeping ∧ (s.proc k).chan = some after.chan <;> simp [Proc.wake, h]

theorem awake_afterWakeup (inv : Awake s) {after : After} {k : Nat} (hlock : s.lock = some p)
    (hrun : (s.proc p).state = .running) (hpc : (s.proc p).pc = .wakeup after k) (hk : ¬ k < N) :
    Awake (afterWakeup s p after) := by
  have howes : ∀ c j, ¬ Owes s p c j := fun c j ho => by
    simp only [Owes, hpc] at ho
    exact hk (Nat.lt_of_le_of_lt ho.2 j.isLt)
  cases after with
  | full job =>
    refine awake_goto inv hlock hrun rfl (fun c h => inv.bound p c ?_) fun c j _ ho => absurd ho (howes c j)
    rw [hpc]
    exact h
  | wrote i | took i => exact awake_release inv (f := s.freed) hlock hrun rfl howes
  | closed writable => exact awake_release inv hlock hrun rfl howes

theorem awake_nap (inv : Awake s) {w : Sleeper} (hlock : s.lock = some p) (hrun : (s.proc p).state = .running) (hpc : (s.proc p).pc = .nap w) :
    Awake (s.goto p (.doze w)).release := by
  have hother : ∀ q, q ≠ p → (s.goto p (.doze w)).release.proc q = s.proc q := fun q hq => set_ne s _ hq
  refine inv.next (p := p) ⟨fun q hq => by rw [hother q hq], fun q hq h => by rw [hother q hq, h],
    fun q hq h => absurd (Option.some.inj (h.symm.trans hlock)) hq⟩ ⟨fun h => ?_, fun c h => ?_⟩ fun c j hj => .inl ?_
  · rw [show ((s.goto p (.doze w)).release.proc p).pc = .doze w from goto_pc ..] at h; cases h
  · rw [show ((s.goto p (.doze w)).release.proc p).pc = .doze w from goto_pc ..] at h; cases h
  · rcases eq_or_ne j p with rfl | hne
    · have hc : w.chan = c := by
        simpa [Proc.waits, Sys.release, Sys.goto, Proc.goto, Pc.dozes, hrun] using hj
      exact inv.bound j c (by rw [hpc, ← hc]; rfl)
    · rw [hother j hne] at hj
      exact (inv.mine hlock hj).resolve_right fun ho => by simp [Owes, hpc] at ho

theorem awake_doze (inv : Awake s) {w : Sleeper} (hpc : (s.proc p).pc = .doze w) :
    Awake (s.set p ((s.proc p).sleepOn w)) := by
  refine inv.aside (by rw [hpc]; rfl) rfl fun c hc => .inr ?_
  have hw : w.chan = c := by simpa [Proc.waits, Proc.sleepOn, Pc.dozes] using hc
  simp [Proc.waits, Pc.dozes, hpc, hw]

theorem awake_run (inv : Awake s) {copy : Option UInt8} (hrun : (s.proc p).state = .running)
    (h : runPc s p copy (s.proc p).pc = .ok t) : Awake t := by
  have hlock : (s.proc p).pc.locked = true → s.lock = some p := inv.lock p
  cases hpc : (s.proc p).pc with
  | enter w =>
    rw [hpc] at h
    cases w with
    | writer job =>
      simp only [runPc] at h
      split at h <;> cases h
      exact awake_acquire inv hrun ‹_› rfl rfl
    | reader n =>
      simp only [runPc] at h
      split at h <;> cases h
      exact awake_acquire inv hrun ‹_› rfl rfl
  | closing writable =>
    simp only [hpc, runPc] at h
    split at h <;> cases h
    exact awake_close inv writable hrun ‹_›
  | writing job =>
    simp only [hpc, runPc] at h
    cases h
    exact awake_writeRound inv (hlock (by rw [hpc]; rfl)) hrun hpc
  | reading n =>
    simp only [hpc, runPc] at h
    cases h
    exact awake_readRound inv (hlock (by rw [hpc]; rfl)) hrun hpc
  | copying n i =>
    simp only [hpc, runPc] at h
    cases h
    exact awake_copyRound inv (hlock (by rw [hpc]; rfl)) hrun hpc
  | wakeup after k =>
    have hl := hlock (by rw [hpc]; rfl)
    simp only [hpc, runPc] at h
    split at h
    · rename_i hk
      split at h
      · rename_i hp
        cases h
        subst hp
        exact awake_pass inv hl hrun hpc (not_waits (by simp [hrun]) (by simp [Proc.dozing, hpc]) _)
      · rename_i hp
        split at h <;> cases h
        rename_i hdoze
        exact awake_wakeRound inv (k := ⟨k, hk⟩) hl hrun hpc (fun he => hp (congrArg Fin.val he).symm) (by simpa using hdoze)
    · cases h
      exact awake_afterWakeup inv hl hrun hpc ‹_›
  | nap w =>
    simp only [hpc, runPc] at h
    cases h
    exact awake_nap inv (hlock (by rw [hpc]; rfl)) hrun hpc
  | doze w =>
    simp only [hpc, runPc] at h
    cases h
    exact awake_doze inv hpc
  | user | asleep w => simp [hpc, runPc] at h

theorem awake_step {a : Action N} (inv : Awake s) (hok : KillsClean s a) (h : step s a = .ok t) : Awake t := by
  cases a with
  | schedule p =>
    simp only [step] at h
    split at h <;> cases h
    exact awake_schedule inv ‹_›
  | yield p =>
    simp only [step] at h
    split at h <;> cases h
    rename_i hy
    have hs : (s.proc p).pc.locked = false := by
      by_contra hl
      exact hy.2.1 (inv.lock p (by simpa using hl))
    refine inv.aside hs hs fun c hc => ?_
    rw [not_waits (x := { s.proc p with state := .runnable }) (by simp) hy.2.2] at hc
    cases hc
  | call p c =>
    simp only [step] at h
    split at h <;> cases h
    rename_i hc
    have haway : ∀ pc : Pc, pc.locked = false → pc.dozes = none → Awake (s.goto p pc) := fun pc hpc hdoze =>
      inv.aside (by rw [hc.2.1]; rfl) hpc fun c hw => by
        simp [Proc.waits, Proc.goto, hdoze, hc.1] at hw
    cases c with
    | write n =>
      obtain ⟨hlock, hrun, hbound, hwaits⟩ := haway (.enter (.writer ⟨n, 0, s.calls⟩)) rfl rfl
      exact ⟨hlock, hrun, hbound, hwaits⟩
    | read n => exact haway _ rfl rfl
    | close writable => exact haway _ rfl rfl
  | run p copy =>
    simp only [step] at h
    split at h
    · exact awake_run inv ‹_ ∧ _›.1 h
    · cases h
  | kill p =>
    simp only [step] at h
    split at h <;> cases h
    exact awake_kill inv hok
  | sleep p =>
    simp only [step] at h
    split at h <;> cases h
    rename_i hc
    have hs : (s.proc p).pc.locked = false := by rw [hc.2]; rfl
    refine inv.aside hs hs fun c hw => .inl ?_
    simpa [Proc.waits, Pc.dozes, hc.2, eq_comm] using hw
  | wake p =>
    simp only [step] at h
    split at h <;> cases h
    exact awake_wake inv .other
  | reuse p =>
    simp only [step] at h
    split at h <;> cases h
    rename_i hc
    have hs : (s.proc p).pc.locked = false := by rw [hc]; rfl
    refine inv.aside hs hs fun c hw => ?_
    simp [Proc.waits, Pc.dozes, hc] at hw

theorem awake_reach (h : Reach Start step KillsClean s) : Awake s :=
  h.invariant (fun _ => Start.awake) fun _ _ _ inv hok hs => awake_step inv hok hs

def killsClean (s : Sys N) : Action N → Bool
  | .kill p =>
    match (s.proc p).pc with
    | .writing job => decide ((job.i : Int) < job.n → ¬ s.pipe.isEmpty → ∀ j, (s.proc j).waits .nread = false)
    | _ => true
  | _ => true

theorem killsClean_sound (s : Sys N) (a : Action N) (h : killsClean s a = true) : KillsClean s a := by
  rintro p job rfl hpc
  simpa only [killsClean, hpc, decide_eq_true_eq] using h

def readerSleeps : List (Action 2) := .call 0 (.read 1) :: List.replicate 4 (.run 0 none)

end Xv6.Pipe
