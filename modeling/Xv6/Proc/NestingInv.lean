import Xv6.Proc.Nesting

/-! `noff` of a processor is the depth of the critical section of the thread it runs, and `intena` is what the thread
    found where it began. -/

namespace Xv6.Nesting
open Lib

variable {C P L : Type}

def Pc.Active : Pc P L → Prop
  | .run | .pushing _ _ | .spinning _ | .resuming _ => True
  | .parked _ | .waiting _ | .fresh => False

def Pc.Light : Pc P L → Prop
  | .run | .pushing _ _ => True
  | _ => False

theorem Pc.Light.active {pc : Pc P L} (h : pc.Light) : pc.Active := by
  cases pc <;> trivial

structure Inv (s : Sys C P L) : Prop where
  noff : ∀ c, (s.cpu c).noff = (s.cur c).depth
  sie : ∀ c, (s.cpu c).sie = true → (s.cpu c).noff = 0
  active : ∀ c, (s.cur c).pc.Active
  idle : ∀ i, (∀ c, (s.cpu c).run ≠ i) →
    ¬ (s.thread i).pc.Active ∧ (s.thread i).held = [] ∧ (s.thread i).pushes = 0
  uniq : ∀ c c', (s.cpu c).run = (s.cpu c').run → c = c'
  held : ∀ c lk, lk ∈ (s.cur c).held → s.lock lk = some c
  nodup : ∀ c, (s.cur c).held.Nodup
  place : ∀ c, (s.cpu c).run = .scheduler c ∨
    ∃ p, (s.cpu c).run = .proc p ∧ (s.cpu c).proc = some p ∧ (s.thread (.scheduler c)).pc = .waiting p
  state : ∀ c p, (s.cpu c).run = .proc p → s.state p = .running ∨ .proc p ∈ (s.cur c).held
  frames : ∀ i, ∀ pc ∈ (s.thread i).frames, pc.Light
  -- what the local variable of `sched` and `intena` are worth, for a thread that has passed `forkret`
  inside : ∀ c, (s.cur c).passed = true → 0 < (s.cur c).depth → (∀ v, (s.cur c).pc ≠ .resuming v) →
    (s.cpu c).intena = (s.cur c).since
  saved : ∀ i v, (s.thread i).passed = true → (s.thread i).pc = .parked v ∨ (s.thread i).pc = .resuming v →
    v = (s.thread i).since
  back : ∀ c v, (s.cur c).pc = .resuming v → (s.cur c).held ≠ []
  sched : ∀ c, (s.thread (.scheduler c)).passed = false
  fresh : ∀ i, (s.thread i).pc = .fresh → (s.thread i).passed = false

section
variable {s : Sys C P L} {c : C}

theorem Inv.sie_off (h : Inv s) (hd : 0 < (s.cur c).depth) : (s.cpu c).sie = false := by
  cases hs : (s.cpu c).sie with
  | false => rfl
  | true =>
    have := h.sie c hs
    rw [h.noff c] at this
    omega

theorem depth_eq_zero {x : Thread P L} (h : x.depth = 0) : x.held = [] ∧ x.pushes = 0 ∧ ∀ lk, x.pc ≠ .spinning lk := by
  unfold Thread.depth at h
  refine ⟨List.length_eq_zero_iff.mp (by omega), by omega, fun lk hlk => ?_⟩
  rw [hlk] at h
  simp only at h
  omega

theorem depth_run {x : Thread P L} (h : x.pc = .run) : x.depth = x.held.length + x.pushes := by
  simp only [Thread.depth, h, Nat.add_zero]

theorem Inv.light (h : Inv s) (hsie : (s.cpu c).sie = true) : (s.cur c).pc.Light := by
  have hnoff := h.sie c hsie
  rw [h.noff c] at hnoff
  obtain ⟨hheld, -, hspin⟩ := depth_eq_zero hnoff
  have hact := h.active c
  cases hpc : (s.cur c).pc with
  | run => trivial
  | pushing lk old => trivial
  | spinning lk => exact absurd hpc (hspin lk)
  | resuming v => exact absurd hheld (h.back c v hpc)
  | parked v => rw [hpc] at hact; exact hact.elim
  | waiting p => rw [hpc] at hact; exact hact.elim
  | fresh => rw [hpc] at hact; exact hact.elim

theorem Inv.unplaced (h : Inv s) {p : P} (hmem : .proc p ∈ (s.cur c).held) (hne : (s.cpu c).run ≠ .proc p)
    (hstate : s.state p ≠ .running) (d : C) : (s.cpu d).run ≠ .proc p := fun hd => by
  have hd' := (h.state d p hd).resolve_left hstate
  have hcd := (h.held c _ hmem).symm.trans (h.held d _ hd')
  cases hcd
  exact hne hd

theorem Start.inv (h : Start s) : Inv s := by
  have hcur : ∀ c, s.cur c = s.thread (.scheduler c) := fun c => by rw [Sys.cur, h.run c]
  refine ⟨fun c => ?_, fun c _ => h.noff c, fun c => ?_, fun i hi => ?_, fun c d he => ?_, fun c lk hlk => ?_, fun c => ?_,
    fun c => .inl (h.run c), fun c p hp => ?_, fun i => ?_, fun c hp => ?_, fun i v hp => ?_, fun c v hv => ?_,
    fun c => (h.scheduler c).2.2.2.2, fun i hi => ?_⟩
  · obtain ⟨hpc, -, hheld, hpushes, -⟩ := h.scheduler c
    rw [h.noff c, hcur, depth_run hpc, hheld, hpushes]
    rfl
  · rw [hcur, (h.scheduler c).1]
    trivial
  · cases i with
    | scheduler c => exact absurd (h.run c) (hi c)
    | proc p =>
      obtain ⟨hpc, -, hheld, hpushes, -⟩ := h.proc p
      rw [hpc]
      exact ⟨id, hheld, hpushes⟩
  · rw [h.run, h.run] at he
    cases he
    rfl
  · rw [hcur, (h.scheduler c).2.2.1] at hlk
    cases hlk
  · rw [hcur, (h.scheduler c).2.2.1]
    exact List.nodup_nil
  · rw [h.run] at hp
    cases hp
  · cases i with
    | scheduler c => rw [(h.scheduler c).2.1]; nofun
    | proc p => rw [(h.proc p).2.1]; nofun
  · rw [hcur, (h.scheduler c).2.2.2.2] at hp
    cases hp
  · cases i with
    | scheduler c => rw [(h.scheduler c).2.2.2.2] at hp; cases hp
    | proc p => rw [(h.proc p).2.2.2.2] at hp; cases hp
  · rw [hcur, (h.scheduler c).1] at hv
    cases hv
  · cases i with
    | scheduler c => exact (h.scheduler c).2.2.2.2
    | proc p => exact (h.proc p).2.2.2.2

end

section
variable {s : Sys C P L} {c : C}

structure Fine (s : Sys C P L) (c : C) (x : Cpu C P) (y : Thread P L) (lock : Lock P L → Option C) : Prop where
  run : x.run = (s.cpu c).run
  proc : x.proc = (s.cpu c).proc
  noff : x.noff = y.depth
  sie : x.sie = true → x.noff = 0
  active : y.pc.Active
  held : ∀ lk ∈ y.held, lock lk = some c
  nodup : y.held.Nodup
  others : ∀ lk d, d ≠ c → s.lock lk = some d → lock lk = some d
  state : ∀ p, (s.cpu c).run = .proc p → s.state p = .running ∨ .proc p ∈ y.held
  frames : ∀ pc ∈ y.frames, pc.Light
  inside : y.passed = true → 0 < y.depth → x.intena = y.since
  saved : ∀ v, y.pc ≠ .resuming v
  passed : (s.cpu c).run.isProc = false → y.passed = false

theorem Inv.fine (h : Inv s) (hpc : ∀ v, (s.cur c).pc ≠ .resuming v) : Fine s c (s.cpu c) (s.cur c) s.lock where
  run := rfl
  proc := rfl
  noff := h.noff c
  sie := h.sie c
  active := h.active c
  held := h.held c
  nodup := h.nodup c
  others _ _ _ := id
  state := h.state c
  frames := h.frames _
  inside hp hd := h.inside c hp hd hpc
  saved := hpc
  passed hrun := by
    rcases h.place c with hs | ⟨p, hs, -⟩
    · rw [Sys.cur, hs]
      exact h.sched c
    · rw [hs] at hrun
      cases hrun

end

variable [DecidableEq C] [DecidableEq P]

def Sys.put (s : Sys C P L) (c : C) (x : Cpu C P) (y : Thread P L) (lock : Lock P L → Option C) : Sys C P L where
  cpu := Function.update s.cpu c x
  thread := Function.update s.thread (s.cpu c).run y
  lock := lock
  state := s.state

section
variable {s : Sys C P L} {c : C} {x : Cpu C P} {y : Thread P L} {lock : Lock P L → Option C}

theorem put_cpu (s : Sys C P L) (c : C) (x : Cpu C P) (y : Thread P L) (lock : Lock P L → Option C) :
    (s.put c x y lock).cpu c = x := Function.update_self ..

theorem put_cpu_ne {d : C} (h : d ≠ c) : (s.put c x y lock).cpu d = s.cpu d := Function.update_of_ne h ..

theorem put_cur (hrun : x.run = (s.cpu c).run) : (s.put c x y lock).cur c = y := by
  rw [Sys.cur, put_cpu, hrun]
  exact Function.update_self ..

theorem put_cur_ne (h : Inv s) {d : C} (hd : d ≠ c) : (s.put c x y lock).cur d = s.cur d := by
  rw [Sys.cur, put_cpu_ne hd]
  exact Function.update_of_ne (fun he => hd (h.uniq d c he)) ..

theorem put_run (hrun : x.run = (s.cpu c).run) (d : C) : ((s.put c x y lock).cpu d).run = (s.cpu d).run := by
  by_cases hd : d = c
  · rw [hd, put_cpu, hrun]
  · rw [put_cpu_ne hd]

theorem Inv.put (h : Inv s) (hf : Fine s c x y lock) : Inv (s.put c x y lock) := by
  have hthread : ∀ i, i ≠ (s.cpu c).run → (s.put c x y lock).thread i = s.thread i := fun i hi =>
    Function.update_of_ne hi ..
  have hself : (s.put c x y lock).thread (s.cpu c).run = y := Function.update_self ..
  have hcur : (s.put c x y lock).cur c = y := put_cur hf.run
  constructor
  · intro d
    by_cases hd : d = c
    · rw [hd, put_cpu, hcur, hf.noff]
    · rw [put_cpu_ne hd, put_cur_ne h hd, h.noff d]
  · intro d
    by_cases hd : d = c
    · rw [hd, put_cpu]
      exact hf.sie
    · rw [put_cpu_ne hd]
      exact h.sie d
  · intro d
    by_cases hd : d = c
    · rw [hd, hcur]
      exact hf.active
    · rw [put_cur_ne h hd]
      exact h.active d
  · intro i hi
    have hi' : ∀ d, (s.cpu d).run ≠ i := fun d he => hi d ((put_run hf.run d).trans he)
    rw [hthread i (hi' c).symm]
    exact h.idle i hi'
  · intro d e
    rw [put_run hf.run, put_run hf.run]
    exact h.uniq d e
  · intro d lk
    by_cases hd : d = c
    · rw [hd, hcur]
      exact hf.held lk
    · rw [put_cur_ne h hd]
      exact fun hlk => hf.others lk d hd (h.held d lk hlk)
  · intro d
    by_cases hd : d = c
    · rw [hd, hcur]
      exact hf.nodup
    · rw [put_cur_ne h hd]
      exact h.nodup d
  · intro d
    rw [put_run hf.run]
    rcases h.place d with hrun | ⟨p, hrun, hproc, hwait⟩
    · exact .inl hrun
    · refine .inr ⟨p, hrun, ?_, ?_⟩
      · by_cases hd : d = c
        · rw [hd, put_cpu, hf.proc, ← hd]
          exact hproc
        · rw [put_cpu_ne hd]
          exact hproc
      · -- the scheduler of `d` is off its processor, so it is not the thread that steps
        rw [hthread _ fun he => ?_]
        · exact hwait
        · have hact := h.active c
          rw [Sys.cur, ← he, hwait] at hact
          exact hact
  · intro d p
    rw [put_run hf.run]
    by_cases hd : d = c
    · rw [hd, hcur]
      exact hf.state p
    · rw [put_cur_ne h hd]
      exact h.state d p
  · intro i
    by_cases hi : i = (s.cpu c).run
    · rw [hi, hself]
      exact hf.frames
    · rw [hthread i hi]
      exact h.frames i
  · intro d
    by_cases hd : d = c
    · rw [hd, hcur, put_cpu]
      exact fun hp hd _ => hf.inside hp hd
    · rw [put_cur_ne h hd, put_cpu_ne hd]
      exact h.inside d
  · intro i v
    by_cases hi : i = (s.cpu c).run
    · rw [hi, hself]
      rintro - (hv | hv)
      · have := hf.active
        rw [hv] at this
        exact this.elim
      · exact absurd hv (hf.saved v)
    · rw [hthread i hi]
      exact h.saved i v
  · intro d v
    by_cases hd : d = c
    · rw [hd, hcur]
      exact fun hv => absurd hv (hf.saved v)
    · rw [put_cur_ne h hd]
      exact h.back d v
  · intro d
    by_cases hi : .scheduler d = (s.cpu c).run
    · rw [hi, hself]
      exact hf.passed (by rw [← hi]; rfl)
    · rw [hthread _ hi]
      exact h.sched d
  · intro i
    by_cases hi : i = (s.cpu c).run
    · rw [hi, hself]
      intro hv
      have hact := hf.active
      rw [hv] at hact
      exact hact.elim
    · rw [hthread i hi]
      exact h.fresh i

theorem setCpu_setCur (s : Sys C P L) (hrun : x.run = (s.cpu c).run) : (s.setCpu c x).setCur c y = s.put c x y s.lock := by
  have hx : ((s.setCpu c x).cpu c).run = (s.cpu c).run := by
    rw [← hrun]
    exact congrArg Cpu.run (Function.update_self ..)
  unfold Sys.setCur
  rw [hx]
  rfl

theorem setCur_eq (s : Sys C P L) : s.setCur c y = s.put c (s.cpu c) y s.lock := by
  unfold Sys.setCur Sys.put Sys.setThread
  rw [Function.update_eq_self]

theorem setCpu_eq (s : Sys C P L) : s.setCpu c x = s.put c x (s.cur c) s.lock := by
  unfold Sys.setCpu Sys.put Sys.cur
  rw [Function.update_eq_self]

theorem Inv.setBoth (h : Inv s) (hf : Fine s c x y s.lock) : Inv ((s.setCpu c x).setCur c y) := by
  rw [setCpu_setCur s hf.run]
  exact h.put hf

theorem Inv.intr (h : Inv s) (on : Bool) (hpc : (s.cur c).pc = .run) (hd : (s.cur c).depth = 0) :
    Inv (s.setCpu c { s.cpu c with sie := on }) := by
  have hfine := h.fine (c := c) fun v hv => by rw [hpc] at hv; cases hv
  rw [setCpu_eq]
  exact h.put ⟨rfl, rfl, hfine.noff, fun _ => (h.noff c).trans hd, hfine.active, hfine.held, hfine.nodup, hfine.others,
    hfine.state, hfine.frames, fun _ hd' => by omega, hfine.saved, hfine.passed⟩

theorem Inv.trap (h : Inv s) (hsie : (s.cpu c).sie = true) :
    Inv ((s.setCpu c { s.cpu c with sie := false }).setCur c
      { s.cur c with pc := .run, frames := (s.cur c).pc :: (s.cur c).frames }) := by
  have hlight := h.light hsie
  have hnoff := h.sie c hsie
  have hd0 : (s.cur c).depth = 0 := by rw [← h.noff c]; exact hnoff
  obtain ⟨hheld, hpushes, -⟩ := depth_eq_zero hd0
  have hfine := h.fine (c := c) fun v hv => by rw [hv] at hlight; exact hlight
  have hdepth : Thread.depth { s.cur c with pc := .run, frames := (s.cur c).pc :: (s.cur c).frames } = 0 := by
    simp [depth_run, hheld, hpushes]
  refine h.setBoth ⟨rfl, rfl, hnoff.trans hdepth.symm, nofun, trivial, hfine.held, hfine.nodup, hfine.others, hfine.state,
    fun pc hmem => ?_, fun _ hd => by omega, nofun, hfine.passed⟩
  rcases List.mem_cons.mp hmem with rfl | hmem
  · exact hlight
  · exact hfine.frames pc hmem

theorem Inv.eret (h : Inv s) {pc : Pc P L} {frames : List (Pc P L)} (hpc : (s.cur c).pc = .run)
    (hd : (s.cur c).depth = 0) (hf : (s.cur c).frames = pc :: frames) :
    Inv ((s.setCpu c { s.cpu c with sie := true }).setCur c { s.cur c with pc, frames }) := by
  have hfine := h.fine (c := c) fun v hv => by rw [hpc] at hv; cases hv
  have hmem : ∀ pc' ∈ pc :: frames, pc'.Light := by rw [← hf]; exact hfine.frames
  have hlight := hmem pc List.mem_cons_self
  obtain ⟨hheld, hpushes, -⟩ := depth_eq_zero hd
  have hdepth : Thread.depth { s.cur c with pc, frames } = 0 := by
    unfold Thread.depth
    cases pc <;> first | exact hlight.elim | simp [hheld, hpushes]
  have hnoff : (s.cpu c).noff = 0 := (h.noff c).trans hd
  exact h.setBoth ⟨rfl, rfl, hnoff.trans hdepth.symm, fun _ => hnoff, hlight.active, hfine.held, hfine.nodup, hfine.others,
    hfine.state, fun pc' hpc' => hmem pc' (List.mem_cons_of_mem _ hpc'), fun _ hd' => by omega,
    fun v hv => by rw [show pc = .resuming v from hv] at hlight; exact hlight, hfine.passed⟩

theorem Inv.get (h : Inv s) (lk : Option (Lock P L)) (hpc : (s.cur c).pc = .run) :
    Inv (s.setCur c { s.cur c with pc := .pushing lk (s.cpu c).sie }) := by
  rw [setCur_eq]
  have hfine := h.fine (c := c) fun v hv => by rw [hpc] at hv; cases hv
  have hdepth : Thread.depth { s.cur c with pc := .pushing lk (s.cpu c).sie } = (s.cur c).depth := by
    rw [depth_run hpc]
    rfl
  exact h.put ⟨rfl, rfl, hfine.noff.trans hdepth.symm, hfine.sie, trivial, hfine.held, hfine.nodup, hfine.others,
    hfine.state, hfine.frames, fun hp hd => hfine.inside hp (by rwa [hdepth] at hd), nofun, hfine.passed⟩

theorem Inv.pushOff (h : Inv s) {lk : Option (Lock P L)} {old : Bool} (hpc : (s.cur c).pc = .pushing lk old)
    (hact : y.pc.Active) (hback : ∀ v, y.pc ≠ .resuming v) (hdepth : y.depth = (s.cur c).depth + 1)
    (hheld : y.held = (s.cur c).held) (hframes : y.frames = (s.cur c).frames) (hpassed : y.passed = (s.cur c).passed)
    (hsince : y.since = if (s.cur c).depth = 0 then old else (s.cur c).since) :
    Inv ((pushOff s c old).setCur c y) := by
  have hfine := h.fine (c := c) fun v hv => by rw [hpc] at hv; cases hv
  refine h.setBoth ⟨rfl, rfl, ?_, nofun, hact, hheld ▸ hfine.held, hheld ▸ hfine.nodup, hfine.others, hheld ▸ hfine.state,
    hframes ▸ hfine.frames, fun hp _ => ?_, hback, fun hr => hpassed.trans (hfine.passed hr)⟩
  · rw [hdepth, ← h.noff c]
  · rw [hsince]
    simp only [h.noff c]
    split
    · rfl
    · rename_i hne
      exact hfine.inside (hpassed ▸ hp) (by omega)

variable (lock) in
theorem Inv.popOff (h : Inv s) (hpc : (s.cur c).pc = .run)
    (hy : y.pc = .run) (hdepth : y.depth + 1 = (s.cur c).depth) (hframes : y.frames = (s.cur c).frames)
    (hpassed : y.passed = (s.cur c).passed) (hsince : y.since = (s.cur c).since)
    (hheld : ∀ lk ∈ y.held, lock lk = some c) (hnodup : y.held.Nodup)
    (hothers : ∀ lk d, d ≠ c → s.lock lk = some d → lock lk = some d)
    (hstate : ∀ p, (s.cpu c).run = .proc p → s.state p = .running ∨ .proc p ∈ y.held) :
    ∃ t, popOff { s with lock := lock } c y = .ok t ∧ Inv t ∧
      (y.depth = 0 → (t.cpu c).sie = (s.cpu c).intena) ∧ (t.cur c).depth = y.depth := by
  have hfine := h.fine (c := c) fun v hv => by rw [hpc] at hv; cases hv
  have hnoff := h.noff c
  have hsie : (s.cpu c).sie = false := h.sie_off (by omega)
  unfold Nesting.popOff
  simp only [hsie, Bool.false_eq_true, if_false, if_neg (show ¬ (s.cpu c).noff < 1 by omega)]
  refine ⟨_, rfl, ?_, ?_, ?_⟩
  · rw [setCpu_setCur _ (by rfl)]
    refine h.put (c := c) ⟨rfl, rfl, ?_, ?_, ?_, hheld, hnodup, hothers, hstate, hframes ▸ hfine.frames, ?_, ?_, ?_⟩
    · rw [hnoff, ← hdepth]
      rfl
    · intro h1
      obtain ⟨h0, -⟩ := Bool.and_eq_true_iff.mp h1
      exact of_decide_eq_true h0
    · rw [show ({ y with passed := _ } : Thread P L).pc = y.pc from rfl, hy]
      trivial
    · intro hp hd
      have hd' : 0 < y.depth := hd
      have hp' : y.passed = true := by
        have : decide (y.depth = 0) = false := decide_eq_false (by omega)
        simpa [this] using hp
      exact (hfine.inside (hpassed ▸ hp') (by omega)).trans hsince.symm
    · intro v hv
      have hv' : y.pc = .resuming v := hv
      rw [hy] at hv'
      cases hv'
    · intro hr
      have hr' : (s.cpu c).run.isProc = false := hr
      simp only [hr', Bool.false_and, Bool.or_false, hpassed]
      exact hfine.passed hr'
  · intro h0
    rw [setCpu_setCur _ (by rfl), put_cpu, show (s.cpu c).noff - 1 = 0 by omega]
    simp
  · rw [setCpu_setCur _ (by rfl), put_cur (by rfl)]
    rfl

theorem Inv.resume (h : Inv s) {v : Bool} (hpc : (s.cur c).pc = .resuming v) :
    Inv ((s.setCpu c { s.cpu c with intena := v }).setCur c { s.cur c with pc := .run }) := by
  have hdepth : Thread.depth { s.cur c with pc := .run } = (s.cur c).depth := by
    simp only [Thread.depth, hpc]
  refine h.setBoth ⟨rfl, rfl, (h.noff c).trans hdepth.symm, h.sie c, trivial, h.held c, h.nodup c, fun _ _ _ => id,
    h.state c, h.frames _, fun hp _ => h.saved _ v hp (.inr hpc), nofun, fun hr => ?_⟩
  rcases h.place c with hs | ⟨p, hs, -⟩
  · have hsched := h.sched c
    rw [← hs] at hsched
    exact hsched
  · rw [hs] at hr
    cases hr

/-! ### Steps that change threads -/

def Sys.swap (s : Sys C P L) (c : C) (x : Cpu C P) (i : Tid C P) (y : Thread P L) (j : Tid C P) (z : Thread P L)
    (st : P → ProcTable.State) : Sys C P L where
  cpu := Function.update s.cpu c x
  thread := Function.update (Function.update s.thread i y) j z
  lock := s.lock
  state := st

structure Handover (s : Sys C P L) (c : C) (x : Cpu C P) (i : Tid C P) (y : Thread P L) (j : Tid C P) (z : Thread P L)
    (st : P → ProcTable.State) : Prop where
  leaves : (s.cpu c).run = i
  enters : x.run = j
  off : ∀ d, (s.cpu d).run ≠ j
  noff : x.noff = z.depth
  sie : x.sie = false
  active : z.pc.Active
  idle : ¬ y.pc.Active ∧ y.held = [] ∧ y.pushes = 0
  stale : y.pc ≠ .fresh
  held : ∀ lk ∈ z.held, s.lock lk = some c
  nodup : z.held.Nodup
  place : j = .scheduler c ∨ ∃ p, j = .proc p ∧ x.proc = some p ∧ i = .scheduler c ∧ y.pc = .waiting p
  apart : ∀ d, d ≠ c → .scheduler d ≠ i ∧ .scheduler d ≠ j
  state : ∀ p, j = .proc p → st p = .running
  states : ∀ p, s.state p = .running → st p = .running
  frames : y.frames = (s.thread i).frames ∧ z.frames = (s.thread j).frames
  passed : y.passed = (s.thread i).passed ∧ z.passed = (s.thread j).passed
  inside : z.passed = true → (∀ v, z.pc ≠ .resuming v) → x.intena = z.since
  saved : (∀ v, y.passed = true → y.pc = .parked v → v = y.since) ∧ ∀ v, z.passed = true → z.pc = .resuming v → v = z.since
  back : z.held ≠ []

theorem Inv.swap {i j : Tid C P} {z : Thread P L} {st : P → ProcTable.State} (h : Inv s)
    (hf : Handover s c x i y j z st) : Inv (s.swap c x i y j z st) := by
  have hij : i ≠ j := fun he => hf.off c (hf.leaves.trans he)
  have hzj : (s.swap c x i y j z st).thread j = z := Function.update_self ..
  have hyi : (s.swap c x i y j z st).thread i = y := by
    rw [Sys.swap]
    simp only [Function.update_of_ne hij, Function.update_self]
  have hk : ∀ k, k ≠ i → k ≠ j → (s.swap c x i y j z st).thread k = s.thread k := fun k hki hkj => by
    rw [Sys.swap]
    simp only [Function.update_of_ne hkj, Function.update_of_ne hki]
  have hcpu : (s.swap c x i y j z st).cpu c = x := Function.update_self ..
  have hcpu' : ∀ d, d ≠ c → (s.swap c x i y j z st).cpu d = s.cpu d := fun d hd => Function.update_of_ne hd ..
  have hcur : (s.swap c x i y j z st).cur c = z := by rw [Sys.cur, hcpu, hf.enters, hzj]
  have hcur' : ∀ d, d ≠ c → (s.swap c x i y j z st).cur d = s.cur d := fun d hd => by
    rw [Sys.cur, hcpu' d hd, hk _ (fun he => hd (h.uniq d c (he.trans hf.leaves.symm))) (hf.off d)]
    rfl
  constructor
  · intro d
    by_cases hd : d = c
    · rw [hd, hcpu, hcur, hf.noff]
    · rw [hcpu' d hd, hcur' d hd, h.noff d]
  · intro d
    by_cases hd : d = c
    · rw [hd, hcpu, hf.sie]
      nofun
    · rw [hcpu' d hd]
      exact h.sie d
  · intro d
    by_cases hd : d = c
    · rw [hd, hcur]
      exact hf.active
    · rw [hcur' d hd]
      exact h.active d
  · intro k hk0
    have hkj : k ≠ j := fun he => hk0 c (by rw [hcpu, hf.enters, he])
    by_cases hki : k = i
    · rw [hki, hyi]
      exact hf.idle
    · rw [hk k hki hkj]
      refine h.idle k fun d => ?_
      by_cases hd : d = c
      · rw [hd, hf.leaves]
        exact Ne.symm hki
      · rw [← hcpu' d hd]
        exact hk0 d
  · intro d e
    by_cases hd : d = c <;> by_cases he : e = c
    · rw [hd, he]
      exact fun _ => rfl
    · rw [hd, hcpu, hcpu' e he, hf.enters]
      exact fun hr => absurd hr.symm (hf.off e)
    · rw [he, hcpu, hcpu' d hd, hf.enters]
      exact fun hr => absurd hr (hf.off d)
    · rw [hcpu' d hd, hcpu' e he]
      exact h.uniq d e
  · intro d lk
    by_cases hd : d = c
    · rw [hd, hcur]
      exact hf.held lk
    · rw [hcur' d hd]
      exact h.held d lk
  · intro d
    by_cases hd : d = c
    · rw [hd, hcur]
      exact hf.nodup
    · rw [hcur' d hd]
      exact h.nodup d
  · intro d
    by_cases hd : d = c
    · rw [hd, hcpu, hf.enters]
      rcases hf.place with hj | ⟨p, hj, hp, hi, hy⟩
      · exact .inl hj
      · exact .inr ⟨p, hj, hp, by rw [← hi, hyi, hy]⟩
    · rw [hcpu' d hd, hk _ (hf.apart d hd).1 (hf.apart d hd).2]
      exact h.place d
  · intro d p
    by_cases hd : d = c
    · rw [hd, hcpu, hf.enters]
      exact fun hp => .inl (hf.state p hp)
    · rw [hcpu' d hd, hcur' d hd]
      exact fun hp => (h.state d p hp).imp_left (hf.states p)
  · intro k
    by_cases hkj : k = j
    · rw [hkj, hzj, hf.frames.2]
      exact h.frames j
    · by_cases hki : k = i
      · rw [hki, hyi, hf.frames.1]
        exact h.frames i
      · rw [hk k hki hkj]
        exact h.frames k
  · intro d
    by_cases hd : d = c
    · rw [hd, hcur, hcpu]
      exact fun hp _ hv => hf.inside hp hv
    · rw [hcur' d hd, hcpu' d hd]
      exact h.inside d
  · intro k v
    by_cases hkj : k = j
    · rw [hkj, hzj]
      rintro hp (hv | hv)
      · have hact := hf.active
        rw [hv] at hact
        exact hact.elim
      · exact hf.saved.2 v hp hv
    · by_cases hki : k = i
      · rw [hki, hyi]
        rintro hp (hv | hv)
        · exact hf.saved.1 v hp hv
        · have hidle := hf.idle.1
          rw [hv] at hidle
          exact absurd trivial hidle
      · rw [hk k hki hkj]
        exact h.saved k v
  · intro d v
    by_cases hd : d = c
    · rw [hd, hcur]
      exact fun _ => hf.back
    · rw [hcur' d hd]
      exact h.back d v
  · intro d
    by_cases hkj : .scheduler d = j
    · rw [hkj, hzj, hf.passed.2, ← hkj]
      exact h.sched d
    · by_cases hki : .scheduler d = i
      · rw [hki, hyi, hf.passed.1, ← hki]
        exact h.sched d
      · rw [hk _ hki hkj]
        exact h.sched d
  · intro k
    by_cases hkj : k = j
    · rw [hkj, hzj]
      intro hv
      have hact := hf.active
      rw [hv] at hact
      exact hact.elim
    · by_cases hki : k = i
      · rw [hki, hyi]
        exact fun hv => absurd hv hf.stale
      · rw [hk k hki hkj]
        exact h.fresh k

theorem Inv.sched_ok (h : Inv s) {p : P} (hpc : (s.cur c).pc = .run) (hrun : (s.cpu c).run = .proc p)
    (hheld : (s.cur c).held = [.proc p]) (hpushes : (s.cur c).pushes = 0) (hstate : s.state p ≠ .running) :
    ∃ t, Nesting.sched s c = .ok t ∧ Inv t := by
  have hdepth : (s.cur c).depth = 1 := by rw [depth_run hpc, hheld, hpushes]; rfl
  have hnoff : (s.cpu c).noff = 1 := (h.noff c).trans hdepth
  have hsie : (s.cpu c).sie = false := h.sie_off (by omega)
  have hlock : s.lock (.proc p) = some c := h.held c _ (by rw [hheld]; simp)
  obtain ⟨hproc, hwait⟩ : (s.cpu c).proc = some p ∧ (s.thread (.scheduler c)).pc = .waiting p := by
    rcases h.place c with hs | ⟨q, hq, hproc, hwait⟩
    · rw [hrun] at hs
      cases hs
    · rw [hrun] at hq
      cases hq
      exact ⟨hproc, hwait⟩
  have hoff : ∀ d, (s.cpu d).run ≠ .scheduler c := fun d hd => by
    have hact := h.active d
    rw [Sys.cur, hd, hwait] at hact
    exact hact
  have hcur : s.cur c = s.thread (.proc p) := by rw [Sys.cur, hrun]
  obtain ⟨-, -, hschedPushes⟩ := h.idle _ hoff
  refine ⟨s.swap c { s.cpu c with proc := none, run := .scheduler c } (.proc p)
    { s.thread (.proc p) with pc := .parked (s.cpu c).intena, held := [] } (.scheduler c)
    { s.thread (.scheduler c) with pc := .run, held := [.proc p] } s.state, ?_, h.swap ?_⟩
  · unfold Nesting.sched
    simp only [hproc, hlock, hnoff, hsie, hwait, ne_eq, not_true_eq_false, if_false, if_neg hstate, Bool.false_eq_true]
    rfl
  · refine ⟨hrun, rfl, hoff, ?_, hsie, trivial, ⟨id, rfl, ?_⟩, nofun, ?_, List.nodup_singleton _, .inl rfl, ?_, nofun,
      fun _ => id, ⟨rfl, rfl⟩, ⟨rfl, rfl⟩, ?_, ⟨?_, nofun⟩, List.cons_ne_nil _ _⟩
    · simp only [Thread.depth, hschedPushes]
      exact hnoff
    · rw [← hcur]
      exact hpushes
    · intro lk hlk
      rw [List.mem_singleton.mp hlk]
      exact hlock
    · intro d hd
      exact ⟨nofun, fun he => hd (by cases he; rfl)⟩
    · intro hp
      have hsched := h.sched c
      rw [hsched] at hp
      cases hp
    · intro v hp hv
      cases hv
      have hin := h.inside c
      rw [hcur] at hin
      refine hin hp (by rw [← hcur]; omega) fun w hw => ?_
      rw [← hcur, hpc] at hw
      cases hw

theorem Inv.switchTo (h : Inv s) {p : P} {pc : Pc P L} (hpc : (s.cur c).pc = .run) (hrun : (s.cpu c).run = .scheduler c)
    (hheld : (s.cur c).held = [.proc p]) (hpushes : (s.cur c).pushes = 0) (hstate : s.state p = .runnable)
    (hnew : ((s.thread (.proc p)).pc = .fresh ∧ pc = .run) ∨
      ∃ v, (s.thread (.proc p)).pc = .parked v ∧ pc = .resuming v) :
    Inv (Nesting.switchTo s c p pc) := by
  have hmem : .proc p ∈ (s.cur c).held := by rw [hheld]; simp
  have hoff : ∀ d, (s.cpu d).run ≠ .proc p :=
    h.unplaced hmem (by rw [hrun]; nofun) (by rw [hstate]; nofun)
  have hdepth : (s.cur c).depth = 1 := by rw [depth_run hpc, hheld, hpushes]; rfl
  obtain ⟨-, -, hprocPushes⟩ := h.idle _ hoff
  have hcur : s.cur c = s.thread (.scheduler c) := by rw [Sys.cur, hrun]
  have hswap : Nesting.switchTo s c p pc = s.swap c { s.cpu c with proc := some p, run := .proc p } (.scheduler c)
      { s.thread (.scheduler c) with pc := .waiting p, held := [] } (.proc p)
      { s.thread (.proc p) with pc, held := [.proc p] } (Function.update s.state p .running) := rfl
  rw [hswap]
  refine h.swap ⟨hrun, rfl, hoff, ?_, h.sie_off (by omega), ?_, ⟨id, rfl, ?_⟩, nofun, ?_, List.nodup_singleton _,
    .inr ⟨p, rfl, rfl, rfl, rfl⟩, ?_, ?_, ?_, ⟨rfl, rfl⟩, ⟨rfl, rfl⟩, ?_, ⟨nofun, ?_⟩, List.cons_ne_nil _ _⟩
  · have hnoff := (h.noff c).trans hdepth
    rcases hnew with ⟨-, rfl⟩ | ⟨v, -, rfl⟩ <;> simp only [Thread.depth, hprocPushes] <;> exact hnoff
  · rcases hnew with ⟨-, rfl⟩ | ⟨v, -, rfl⟩ <;> trivial
  · rw [← hcur]
    exact hpushes
  · intro lk hlk
    rw [List.mem_singleton.mp hlk]
    exact h.held c _ hmem
  · intro d hd
    exact ⟨fun he => hd (by cases he; rfl), nofun⟩
  · rintro q ⟨⟩
    exact Function.update_self ..
  · intro q hq
    by_cases hqp : q = p
    · rw [hqp, Function.update_self]
    · rw [Function.update_of_ne hqp, hq]
  · intro hp hv
    rcases hnew with ⟨hpcf, -⟩ | ⟨v, -, rfl⟩
    · have hfresh := h.fresh _ hpcf
      rw [show (s.thread (.proc p)).passed = true from hp] at hfresh
      cases hfresh
    · exact absurd rfl (hv v)
  · intro v hp hv
    rcases hnew with ⟨-, rfl⟩ | ⟨w, hw, rfl⟩
    · cases hv
    · have hvw : w = v := by cases hv; rfl
      exact h.saved _ v hp (.inl (hvw ▸ hw))

omit [DecidableEq C] in
theorem Inv.setState (h : Inv s) {q : P} {st : ProcTable.State} (hmem : .proc q ∈ (s.cur c).held)
    (hq : (s.cpu c).run = .proc q ∨ s.state q ≠ .running) : Inv { s with state := Function.update s.state q st } := by
  refine ⟨h.noff, h.sie, h.active, h.idle, h.uniq, h.held, h.nodup, h.place, fun d p hd => ?_, h.frames, h.inside, h.saved,
    h.back, h.sched, h.fresh⟩
  by_cases hp : p = q
  · subst hp
    rcases hq with hrun | hstate
    · cases h.uniq c d (hrun.trans hd.symm)
      exact .inr hmem
    · exact .inr ((h.state d p hd).resolve_left hstate)
  · have hkeep : Function.update s.state q st p = s.state p := Function.update_of_ne hp ..
    exact (h.state d p hd).imp_left hkeep.trans

theorem Inv.renew (h : Inv s) {q : P} (hoff : ∀ d, (s.cpu d).run ≠ .proc q) :
    Inv (s.setThread (.proc q)
      { pc := .fresh, frames := [], held := [], pushes := 0, since := false, passed := false }) := by
  have hself : (s.setThread (.proc q) ⟨.fresh, [], [], 0, false, false⟩).thread (.proc q) = ⟨.fresh, [], [], 0, false, false⟩ :=
    Function.update_self ..
  have hne : ∀ i, i ≠ .proc q → (s.setThread (.proc q) ⟨.fresh, [], [], 0, false, false⟩).thread i = s.thread i :=
    fun i hi => Function.update_of_ne hi ..
  have hcur : ∀ d, (s.setThread (.proc q) ⟨.fresh, [], [], 0, false, false⟩).cur d = s.cur d := fun d => hne _ (hoff d)
  refine ⟨fun d => ?_, h.sie, fun d => ?_, fun i hi => ?_, h.uniq, fun d => ?_, fun d => ?_, fun d => ?_, fun d => ?_, fun i => ?_,
    fun d => ?_, fun i v => ?_, fun d => ?_, fun d => ?_, fun i => ?_⟩
  · rw [hcur]; exact h.noff d
  · rw [hcur]; exact h.active d
  · by_cases hi' : i = .proc q
    · rw [hi', hself]
      exact ⟨id, rfl, rfl⟩
    · rw [hne i hi']
      exact h.idle i hi
  · rw [hcur]; exact h.held d
  · rw [hcur]; exact h.nodup d
  · rw [hne (.scheduler d) fun he => by cases he]; exact h.place d
  · rw [hcur]; exact h.state d
  · by_cases hi : i = .proc q
    · rw [hi, hself]; nofun
    · rw [hne i hi]; exact h.frames i
  · rw [hcur]; exact h.inside d
  · by_cases hi : i = .proc q
    · rw [hi, hself]; nofun
    · rw [hne i hi]; exact h.saved i v
  · rw [hcur]; exact h.back d
  · rw [hne (.scheduler d) fun he => by cases he]; exact h.sched d
  · by_cases hi : i = .proc q
    · rw [hi, hself]; exact fun _ => rfl
    · rw [hne i hi]; exact h.fresh i

end

section
variable [DecidableEq L] {s t : Sys C P L} {c : C}

theorem Inv.take (h : Inv s) {lk : Lock P L} (hpc : (s.cur c).pc = .spinning lk) (hfree : s.lock lk = none) :
    Inv ((s.setLock lk (some c)).setCur c { s.cur c with pc := .run, held := lk :: (s.cur c).held }) := by
  have hfine := h.fine (c := c) fun v hv => by rw [hpc] at hv; cases hv
  have hput : (s.setLock lk (some c)).setCur c { s.cur c with pc := .run, held := lk :: (s.cur c).held } =
      s.put c (s.cpu c) { s.cur c with pc := .run, held := lk :: (s.cur c).held } (Function.update s.lock lk (some c)) := by
    rw [setCur_eq]
    rfl
  have hdepth : Thread.depth { s.cur c with pc := .run, held := lk :: (s.cur c).held } = (s.cur c).depth := by
    simp only [Thread.depth, hpc, List.length_cons]
    omega
  have hnew : ∀ k d, s.lock k = some d → k ≠ lk := fun k d hk he => by
    rw [he, hfree] at hk
    cases hk
  rw [hput]
  refine h.put ⟨rfl, rfl, hfine.noff.trans hdepth.symm, hfine.sie, trivial, fun k hk => ?_, ?_, fun k d _ hk => ?_,
    fun p hp => ?_, hfine.frames, fun hp hd => hfine.inside hp (by rwa [hdepth] at hd), nofun, hfine.passed⟩
  · rcases List.mem_cons.mp hk with rfl | hk
    · exact Function.update_self ..
    · rw [Function.update_of_ne (hnew k c (hfine.held k hk))]
      exact hfine.held k hk
  · exact List.nodup_cons.mpr ⟨fun hmem => hnew lk c (hfine.held lk hmem) rfl, hfine.nodup⟩
  · rw [Function.update_of_ne (hnew k d hk)]
    exact hk
  · exact (hfine.state p hp).imp_right (List.mem_cons_of_mem _)

theorem Inv.release (h : Inv s) {lk : Lock P L} (hpc : (s.cur c).pc = .run) (hmem : lk ∈ (s.cur c).held)
    (hown : ∀ p, (s.cpu c).run = .proc p → lk = .proc p → s.state p = .running) :
    ∃ t, step s (.release c lk) = .ok t ∧ Inv t ∧ (t.cur c).depth + 1 = (s.cur c).depth ∧
      ((t.cur c).depth = 0 → (t.cpu c).sie = (s.cpu c).intena) := by
  have hlock := h.held c lk hmem
  have hlen := List.length_erase_of_mem hmem
  have hpos := List.length_pos_of_mem hmem
  have hdepth : Thread.depth { s.cur c with held := (s.cur c).held.erase lk } + 1 = (s.cur c).depth := by
    simp only [Thread.depth, hpc, hlen]
    omega
  obtain ⟨t, ht, hinv, hsie, hd⟩ := h.popOff (Function.update s.lock lk none) (c := c)
    (y := { s.cur c with held := (s.cur c).held.erase lk }) hpc hpc hdepth rfl rfl rfl
    (fun k hk => by
      have hne : k ≠ lk := fun he => by rw [he] at hk; exact (h.nodup c).not_mem_erase hk
      rw [Function.update_of_ne hne]
      exact h.held c k (List.mem_of_mem_erase hk))
    ((h.nodup c).erase lk)
    (fun k d hd hk => by
      have hne : k ≠ lk := fun he => by
        rw [he, hlock] at hk
        cases hk
        exact hd rfl
      rw [Function.update_of_ne hne]
      exact hk)
    (fun p hp => by
      rcases h.state c p hp with hs | hs
      · exact .inl hs
      · by_cases hlk : lk = .proc p
        · exact .inl (hown p hp hlk)
        · exact .inr ((List.mem_erase_of_ne fun he => hlk he.symm).mpr hs))
  exact ⟨t, by simp only [step, if_pos hlock]; exact ht, hinv, by rw [hd]; exact hdepth, by rw [hd]; exact hsie⟩

theorem Inv.popOff_step (h : Inv s) (hpc : (s.cur c).pc = .run) (hpushes : 0 < (s.cur c).pushes) :
    ∃ t, step s (.popOff c) = .ok t ∧ Inv t ∧ (t.cur c).depth + 1 = (s.cur c).depth ∧
      ((t.cur c).depth = 0 → (t.cpu c).sie = (s.cpu c).intena) := by
  have hdepth : Thread.depth { s.cur c with pushes := (s.cur c).pushes - 1 } + 1 = (s.cur c).depth := by
    simp only [Thread.depth, hpc]
    omega
  obtain ⟨t, ht, hinv, hsie, hd⟩ := h.popOff s.lock (c := c) (y := { s.cur c with pushes := (s.cur c).pushes - 1 })
    hpc hpc hdepth rfl rfl rfl (h.held c) (h.nodup c) (fun _ _ _ => id) (h.state c)
  exact ⟨t, ht, hinv, by rw [hd]; exact hdepth, by rw [hd]; exact hsie⟩

theorem step_inv {a : Action C P L} (h : Inv s) (hok : Balanced s a) :
    (∀ t, step s a = .ok t → Inv t) ∧ ∀ what, step s a = .error (.panic what) → what = .acquire := by
  cases a with
  | intr c on =>
    refine ⟨fun t hs => ?_, nofun⟩
    cases hs
    exact h.intr on hok.1 hok.2
  | trap c =>
    simp only [step]
    split
    · rename_i hsie
      refine ⟨fun t hs => ?_, nofun⟩
      cases hs
      exact h.trap hsie
    · exact ⟨nofun, nofun⟩
  | eret c =>
    simp only [step]
    split
    · exact ⟨nofun, nofun⟩
    · rename_i pc frames hf
      refine ⟨fun t hs => ?_, nofun⟩
      cases hs
      exact h.eret hok.1 hok.2 hf
  | get c lk =>
    refine ⟨fun t hs => ?_, nofun⟩
    cases hs
    exact h.get lk hok
  | off c =>
    simp only [step]
    split
    · rename_i lk old hpc
      split
      · refine ⟨fun t hs => ?_, nofun⟩
        cases hs
        refine h.pushOff hpc trivial nofun ?_ rfl rfl rfl rfl
        simp only [Thread.depth, hpc]
        omega
      · split
        · refine ⟨nofun, fun what hs => ?_⟩
          cases hs
          rfl
        · refine ⟨fun t hs => ?_, nofun⟩
          cases hs
          refine h.pushOff hpc trivial nofun ?_ rfl rfl rfl rfl
          simp only [Thread.depth, hpc]
    · exact ⟨nofun, nofun⟩
  | take c =>
    simp only [step]
    split
    · rename_i lk hpc
      split
      · rename_i hfree
        refine ⟨fun t hs => ?_, nofun⟩
        cases hs
        exact h.take hpc hfree
      · exact ⟨nofun, nofun⟩
    · exact ⟨nofun, nofun⟩
  | release c lk =>
    obtain ⟨t, ht, hinv, -⟩ := h.release hok.1 hok.2.1 hok.2.2
    rw [ht]
    refine ⟨fun u hu => ?_, nofun⟩
    cases hu
    exact hinv
  | popOff c =>
    obtain ⟨t, ht, hinv, -⟩ := h.popOff_step hok.1 hok.2
    rw [ht]
    refine ⟨fun u hu => ?_, nofun⟩
    cases hu
    exact hinv
  | setState c q st =>
    refine ⟨fun t hs => ?_, nofun⟩
    cases hs
    exact h.setState hok.2.1 hok.2.2.2
  | sched c =>
    obtain ⟨hpc, p, hrun, hheld, hpushes, hstate⟩ := hok
    obtain ⟨t, ht, hinv⟩ := h.sched_ok hpc hrun hheld hpushes hstate
    simp only [step, ht]
    refine ⟨fun u hu => ?_, nofun⟩
    cases hu
    exact hinv
  | resume c =>
    simp only [step]
    split
    · rename_i v hpc
      refine ⟨fun t hs => ?_, nofun⟩
      cases hs
      exact h.resume hpc
    · exact ⟨nofun, nofun⟩
  | pick c =>
    obtain ⟨hpc, hrun, -, hpushes⟩ := hok
    simp only [step]
    split
    · rename_i p hheld
      split
      · rename_i hstate
        split
        · rename_i hfresh
          refine ⟨fun t hs => ?_, nofun⟩
          cases hs
          exact h.switchTo hpc hrun hheld hpushes hstate (.inl ⟨hfresh, rfl⟩)
        · rename_i v hparked
          refine ⟨fun t hs => ?_, nofun⟩
          cases hs
          exact h.switchTo hpc hrun hheld hpushes hstate (.inr ⟨v, hparked, rfl⟩)
        · exact ⟨nofun, nofun⟩
      · exact ⟨nofun, nofun⟩
    · exact ⟨nofun, nofun⟩
  | renew c q =>
    obtain ⟨-, hmem, hne, hstate⟩ := hok
    refine ⟨fun t hs => ?_, nofun⟩
    cases hs
    exact h.renew (h.unplaced hmem hne (by rw [hstate]; nofun))

theorem Reached.inv (h : Reached s) : Inv s :=
  Reach.invariant (I := Inv) (fun _ => Start.inv) (fun _ t _ hi hok hs => (step_inv hi hok).1 t hs) h

/-- The innermost call of a thread that leaves its outermost critical section. -/
def Leaves (c : C) (a : Action C P L) : Prop := a = .popOff c ∨ ∃ lk, a = .release c lk

/-- Interrupts are off where `noff` is not 0, neither `pop_off` nor `sched` panics, and a process that leaves its
    outermost critical section has the interrupt-enable bit that it had where it entered it. -/
theorem interrupt_nesting (h : Reached s) :
    (∀ c, 0 < (s.cpu c).noff → (s.cpu c).sie = false) ∧
    (∀ a what, Balanced s a → step s a = .error (.panic what) →
      what ∉ [.popOffInterruptible, .popOff, .schedLock, .schedLocks, .schedRunning, .schedInterruptible]) ∧
    (∀ c p a t, Leaves c a → Balanced s a → (s.cpu c).run = .proc p → (s.cur c).passed = true → step s a = .ok t →
      (t.cur c).depth = 0 → (t.cpu c).sie = (s.cur c).since) := by
  have hi := h.inv
  refine ⟨fun c hc => ?_, fun a what hok hs => ?_, fun c p a t hleaves hok _ hp hs hd => ?_⟩
  · rw [hi.noff c] at hc
    exact hi.sie_off hc
  · rw [(step_inv hi hok).2 what hs]
    decide
  · have hpc : (s.cur c).pc = .run := by
      rcases hleaves with rfl | ⟨lk, rfl⟩
      · exact hok.1
      · exact hok.1
    obtain ⟨u, hu, hdepth, hsie⟩ : ∃ u, step s a = .ok u ∧ (u.cur c).depth + 1 = (s.cur c).depth ∧
        ((u.cur c).depth = 0 → (u.cpu c).sie = (s.cpu c).intena) := by
      rcases hleaves with rfl | ⟨lk, rfl⟩
      · obtain ⟨u, hu, -, hd, hsie⟩ := hi.popOff_step hok.1 hok.2
        exact ⟨u, hu, hd, hsie⟩
      · obtain ⟨u, hu, -, hd, hsie⟩ := hi.release hok.1 hok.2.1 hok.2.2
        exact ⟨u, hu, hd, hsie⟩
    cases hu.symm.trans hs
    rw [hsie hd]
    exact hi.inside c hp (by omega) fun v hv => by rw [hpc] at hv; cases hv

instance [Fintype P] (s : Sys C P L) : (a : Action C P L) → Decidable (Balanced s a)
  | .intr _ _ | .eret _ | .popOff _ => inferInstanceAs (Decidable (_ ∧ _))
  | .trap _ | .off _ | .take _ | .resume _ => inferInstanceAs (Decidable True)
  | .get _ _ => inferInstanceAs (Decidable (_ = _))
  | .release _ _ => inferInstanceAs (Decidable (_ ∧ _ ∧ ∀ _, _ → _ → _))
  | .setState _ _ _ => inferInstanceAs (Decidable (_ ∧ _ ∧ _ ∧ (_ ∨ _)))
  | .sched _ => inferInstanceAs (Decidable (_ ∧ ∃ _, _ ∧ _ ∧ _ ∧ _))
  | .pick _ | .renew _ _ => inferInstanceAs (Decidable (_ ∧ _ ∧ _ ∧ _))

end

def boot : Sys Bool Unit Unit where
  cpu c := { noff := 0, intena := false, sie := false, proc := none, run := .scheduler c }
  thread
    | .scheduler _ => { pc := .run, frames := [], held := [], pushes := 0, since := false, passed := false }
    | .proc _ => { pc := .fresh, frames := [], held := [], pushes := 0, since := false, passed := false }
  lock _ := none
  state _ := .runnable

def yielding : List (Action Bool Unit Unit) :=
  [.get false (some (.proc ())), .off false, .take false, .pick false, .release false (.proc ()), .intr false true,
   .get false (some (.proc ())), .off false, .take false, .setState false () .runnable, .sched false,
   .release false (.proc ()), .get true (some (.proc ())), .off true, .take true, .pick true, .resume true]

theorem interrupt_nesting_yield : ∃ s t : Sys Bool Unit Unit, Reached s ∧ (s.cpu true).sie = false ∧
    step s (.release true (.proc ())) = .ok t ∧ (s.cur true).since = true ∧ (t.cpu true).sie = true := by
  have hrun : (run step (fun s a => decide (Balanced s a)) boot yielding).any (fun s =>
      decide ((s.cpu true).run = .proc () ∧ (s.cur true).passed = true ∧ (s.cpu true).sie = false ∧
        Balanced s (.release true (.proc ())) ∧ (s.cur true).since = true) &&
      (match step s (.release true (.proc ())) with | .ok t => decide ((t.cur true).depth = 0) | .error _ => false)) =
      true := by decide +kernel
  obtain ⟨s, hs, hlast⟩ := (Option.any_eq_true _ _).mp hrun
  obtain ⟨hfacts, hnext⟩ := Bool.and_eq_true_iff.mp hlast
  obtain ⟨hproc, hpassed, hsie, hok, hsince⟩ := of_decide_eq_true hfacts
  have hreach : Reached s := Reach.of_run (fun _ _ h => of_decide_eq_true h) yielding
    (.init ⟨fun _ => rfl, fun _ => rfl, fun _ => ⟨rfl, rfl, rfl, rfl, rfl⟩, fun _ => ⟨rfl, rfl, rfl, rfl, rfl⟩,
      fun _ => rfl⟩) hs
  split at hnext
  · rename_i t ht
    have hleave := (interrupt_nesting hreach).2.2 true () _ t (.inr ⟨_, rfl⟩) hok hproc hpassed ht (of_decide_eq_true hnext)
    exact ⟨s, t, hreach, hsie, ht, hsince, hleave.trans hsince⟩
  · cases hnext

end Xv6.Nesting
