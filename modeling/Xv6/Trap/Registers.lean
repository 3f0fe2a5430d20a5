import Xv6.Trap.Basic

/-! Registers survive traps and switches: trapframes, contexts and stacks hold what is to be restored from them. -/

namespace Xv6.Trap
open Lib
open Nesting (Tid)

variable {C P : Type}

def Proc.Matches (x : Proc C) : Prop :=
  (∀ r, x.frame (Field.reg r).addr = x.expected r) ∧ x.frame Field.epc.addr = x.expectedPc

def Frame.OnStack (f : Frame) (stack : Word → Word) : Prop :=
  ∀ x ∈ kernelSlots, stack (f.base + off x.2) = if x.1 = .sp then f.base else f.regs x.1

structure Inv (L : Layout C P) (s : Sys C P) : Prop where
  uniq : ∀ c d, (s.cpu c).run = (s.cpu d).run → c = d
  place : ∀ c, (s.cpu c).run = .scheduler c ∨ ∃ p, (s.cpu c).run = .proc p
  own : ∀ c p, (s.cpu c).run = .proc p → (s.proc p).state = .running ∨ (s.proc p).lock = some c
  mode : ∀ c p, (s.cpu c).run = .proc p → ((s.cpu c).user = true ↔ (s.proc p).phase = .user)
  sched : ∀ c d, (s.cpu c).run = .scheduler d → (s.cpu c).user = false
  placed : ∀ p, (s.proc p).phase = .user → ∃ c, (s.cpu c).run = .proc p
  traps : ∀ p, (s.proc p).phase ≠ .user → (s.proc p).Matches
  call : ∀ p, (s.proc p).phase = .call → (s.proc p).trap.call = true
  contexts : ∀ i, (∀ c, (s.cpu c).run ≠ i) → ∀ r ∈ context,
    s.context (L.context i + off (contextOffset r)) = (s.thread i).saved r
  frames : ∀ i, ∀ f ∈ (s.thread i).frames, f.OnStack (s.thread i).stack

theorem slots_lt : ∀ x ∈ kernelSlots, x.2 < 256 := by decide

section
variable {s : Sys C P} {c : C} {L : Layout C P}

theorem Inv.unplaced (h : Inv L s) {p : P} (hlock : (s.proc p).lock = some c) (hne : (s.cpu c).run ≠ .proc p)
    (hstate : (s.proc p).state ≠ .running) (d : C) : (s.cpu d).run ≠ .proc p := fun hd => by
  have hd' := (h.own d p hd).resolve_left hstate
  rw [hlock] at hd'
  cases hd'
  exact hne hd

theorem Start.inv (h : Start L s) : Inv L s where
  uniq c d he := by
    rw [(h.run c).1, (h.run d).1] at he
    cases he
    rfl
  place c := .inl (h.run c).1
  own c p hp := by rw [(h.run c).1] at hp; cases hp
  mode c p hp := by rw [(h.run c).1] at hp; cases hp
  sched c _ _ := (h.run c).2
  placed p hp := by rw [(h.proc p).1] at hp; cases hp
  traps p _ := (h.proc p).2
  call p hp := by rw [(h.proc p).1] at hp; cases hp
  contexts i _ := h.context i
  frames i f hf := by rw [h.frames i] at hf; cases hf

end

variable [DecidableEq C] [DecidableEq P]

section
variable {L : Layout C P} {s : Sys C P} {c : C} {p : P} {x : Cpu C P}

omit [DecidableEq P] in
theorem run_setCpu (hrun : x.run = (s.cpu c).run) (d : C) : ((s.setCpu c x).cpu d).run = (s.cpu d).run := by
  by_cases hd : d = c
  · rw [hd, ← hrun]
    exact congrArg Cpu.run (Function.update_self ..)
  · exact congrArg Cpu.run (Function.update_of_ne hd ..)

omit [DecidableEq P] in
theorem user_setCpu (huser : x.user = (s.cpu c).user) (d : C) : ((s.setCpu c x).cpu d).user = (s.cpu d).user := by
  by_cases hd : d = c
  · rw [hd, ← huser]
    exact congrArg Cpu.user (Function.update_self ..)
  · exact congrArg Cpu.user (Function.update_of_ne hd ..)

theorem Inv.inside (h : Inv L s) {y : Thread} (hrun : x.run = (s.cpu c).run) (huser : x.user = (s.cpu c).user)
    (hframes : ∀ f ∈ y.frames, f.OnStack y.stack) :
    Inv L ((s.setCpu c x).setThread (s.cpu c).run y) := by
  have hr := run_setCpu (s := s) hrun
  have hu := user_setCpu (s := s) huser
  refine ⟨fun d e => ?_, fun d => ?_, fun d p => ?_, fun d p => ?_, fun d e => ?_, fun p hp => ?_, h.traps, h.call,
    fun i hi => ?_, fun i => ?_⟩
  · exact fun he => h.uniq d e ((hr d).symm.trans (he.trans (hr e)))
  · exact (h.place d).imp (hr d).trans fun ⟨p, hp⟩ => ⟨p, (hr d).trans hp⟩
  · exact fun hp => h.own d p ((hr d).symm.trans hp)
  · intro hp
    exact (iff_of_eq (congrArg (· = true) (hu d))).trans (h.mode d p ((hr d).symm.trans hp))
  · exact fun he => (hu d).trans (h.sched d e ((hr d).symm.trans he))
  · obtain ⟨d, hd⟩ := h.placed p hp
    exact ⟨d, (hr d).trans hd⟩
  · have hi' : ∀ d, (s.cpu d).run ≠ i := fun d he => hi d ((hr d).trans he)
    have hkeep : ((s.setCpu c x).setThread (s.cpu c).run y).thread i = s.thread i := Function.update_of_ne (hi' c).symm ..
    rw [hkeep]
    exact h.contexts i hi'
  · by_cases hi : i = (s.cpu c).run
    · have hself : ((s.setCpu c x).setThread (s.cpu c).run y).thread i = y := by rw [hi]; exact Function.update_self ..
      rw [hself]
      exact hframes
    · have hkeep : ((s.setCpu c x).setThread (s.cpu c).run y).thread i = s.thread i := Function.update_of_ne hi ..
      rw [hkeep]
      exact h.frames i

omit [DecidableEq C] in
theorem Inv.setProc (h : Inv L s) {y : Proc C}
    (hown : ∀ d, (s.cpu d).run = .proc p → y.state = .running ∨ y.lock = some d)
    (hphase : y.phase = .user ↔ (s.proc p).phase = .user) (htraps : y.phase ≠ .user → y.Matches)
    (hcall : y.phase = .call → y.trap.call = true) : Inv L (s.setProc p y) := by
  have hself : (s.setProc p y).proc p = y := Function.update_self ..
  have hkeep : ∀ q, q ≠ p → (s.setProc p y).proc q = s.proc q := fun q hq => Function.update_of_ne hq ..
  refine ⟨h.uniq, h.place, fun d q hd => ?_, fun d q hd => ?_, h.sched, fun q => ?_, fun q => ?_, fun q => ?_, h.contexts,
    h.frames⟩
  · by_cases hq : q = p
    · rw [hq, hself]
      exact hown d (hq ▸ hd)
    · rw [hkeep q hq]
      exact h.own d q hd
  · by_cases hq : q = p
    · rw [hq, hself, hphase, ← hq]
      exact h.mode d q hd
    · rw [hkeep q hq]
      exact h.mode d q hd
  · by_cases hq : q = p
    · rw [hq, hself, hphase, ← hq]
      exact h.placed q
    · rw [hkeep q hq]
      exact h.placed q
  · by_cases hq : q = p
    · rw [hq, hself]
      exact htraps
    · rw [hkeep q hq]
      exact h.traps q
  · by_cases hq : q = p
    · rw [hq, hself]
      exact hcall
    · rw [hkeep q hq]
      exact h.call q

theorem Inv.cross (h : Inv L s) {y : Proc C} (hp : (s.cpu c).run = .proc p) (hrun : x.run = (s.cpu c).run)
    (hsame : y.state = (s.proc p).state ∧ y.lock = (s.proc p).lock) (hmode : x.user = true ↔ y.phase = .user)
    (htraps : y.phase ≠ .user → y.Matches) (hcall : y.phase = .call → y.trap.call = true) :
    Inv L ((s.setCpu c x).setProc p y) := by
  have hr := run_setCpu (s := s) hrun
  have hself : ((s.setCpu c x).setProc p y).proc p = y := Function.update_self ..
  have hkeep : ∀ q, q ≠ p → ((s.setCpu c x).setProc p y).proc q = s.proc q := fun q hq => Function.update_of_ne hq ..
  have hx : ((s.setCpu c x).setProc p y).cpu c = x := Function.update_self ..
  have hcpu : ∀ d, d ≠ c → ((s.setCpu c x).setProc p y).cpu d = s.cpu d := fun d hd => Function.update_of_ne hd ..
  refine ⟨fun d e he => h.uniq d e ((hr d).symm.trans (he.trans (hr e))),
    fun d => (h.place d).imp (hr d).trans fun ⟨p, hp⟩ => ⟨p, (hr d).trans hp⟩, fun d q hd => ?_, fun d q hd => ?_,
    fun d e hd => ?_, fun q hq => ?_, fun q => ?_, fun q => ?_, fun i hi => h.contexts i fun d he => hi d ((hr d).trans he),
    h.frames⟩
  · have hd' := (hr d).symm.trans hd
    by_cases hq : q = p
    · rw [hq, hself, hsame.1, hsame.2, ← hq]
      exact h.own d q hd'
    · rw [hkeep q hq]
      exact h.own d q hd'
  · have hd' := (hr d).symm.trans hd
    by_cases hdc : d = c
    · have hqp : q = p := by
        rw [hdc, hp] at hd'
        cases hd'
        rfl
      rw [hdc, hx, hqp, hself]
      exact hmode
    · have hqp : q ≠ p := fun he => hdc (h.uniq d c (hd'.trans (by rw [he, hp])))
      rw [hcpu d hdc, hkeep q hqp]
      exact h.mode d q hd'
  · have hd' := (hr d).symm.trans hd
    by_cases hdc : d = c
    · rw [hdc, hp] at hd'
      cases hd'
    · rw [hcpu d hdc]
      exact h.sched d e hd'
  · by_cases hqp : q = p
    · exact ⟨c, (hr c).trans (by rw [hp, hqp])⟩
    · rw [hkeep q hqp] at hq
      obtain ⟨d, hd⟩ := h.placed q hq
      exact ⟨d, (hr d).trans hd⟩
  · by_cases hqp : q = p
    · rw [hqp, hself]
      exact htraps
    · rw [hkeep q hqp]
      exact h.traps q
  · by_cases hqp : q = p
    · rw [hqp, hself]
      exact hcall
    · rw [hkeep q hqp]
      exact h.call q

end

section
variable {L : Layout C P} {s : Sys C P} {c : C} {p : P}

omit [DecidableEq C] in
theorem store_self (y : Proc C) (f : Field) (v : Word) : (y.store f v).frame f.addr = v := Function.update_self ..

omit [DecidableEq C] in
theorem store_ne (y : Proc C) {f g : Field} (v : Word) (h : g ≠ f) : (y.store f v).frame g.addr = y.frame g.addr :=
  Function.update_of_ne (addr_ne h) ..

theorem reg_addr_ne_epc (r : Reg) : (Field.reg r).addr ≠ Field.epc.addr := addr_ne (by nofun)

theorem reg_addr_ne {r q : Reg} (h : r ≠ q) : (Field.reg r).addr ≠ (Field.reg q).addr :=
  addr_ne fun he => h (by cases he; rfl)

theorem Inv.usertrap (h : Inv L s) (hp : (s.cpu c).run = .proc p) (call : Bool) : Inv L (usertrap s c p call) := by
  have hreg : ∀ r, (run uservec ((s.cpu c).machine (s.proc p).frame)).mem (Field.reg r).addr = (s.cpu c).regs r :=
    uservec_spec _
  have hepc := store_self { s.proc p with frame := (run uservec ((s.cpu c).machine (s.proc p).frame)).mem } .epc (s.cpu c).pc
  have hkeep : ∀ r v, ({ s.proc p with frame := (run uservec ((s.cpu c).machine (s.proc p).frame)).mem }.store .epc v).frame
      (Field.reg r).addr = (s.cpu c).regs r := fun r v => (store_ne _ v (by nofun)).trans (hreg r)
  unfold Trap.usertrap
  cases call with
  | false =>
    simp only [Bool.false_eq_true, if_false]
    refine h.cross hp rfl ⟨rfl, rfl⟩ ⟨nofun, nofun⟩ (fun _ => ⟨fun r => (hkeep r _).trans ?_, hepc.trans ?_⟩) nofun
    · simp [Proc.expected]
    · simp [Proc.expectedPc]
  | true =>
    simp only [if_true]
    refine h.cross hp rfl ⟨rfl, rfl⟩ ⟨nofun, nofun⟩ (fun _ => ⟨fun r => (store_ne _ _ (by nofun)).trans
      ((hkeep r _).trans ?_), ?_⟩) fun _ => rfl
    · simp [Proc.expected]
    · rw [hepc]
      simp only [Proc.store, Function.update_self, Proc.expectedPc, if_true]

omit [DecidableEq C] in
theorem usertrapret_frame (y : Proc C) (satp ksp ktrap hartid : Word) {f : Field} (hf : f = .epc ∨ ∃ r, f = .reg r) :
    ((((y.store .kernelSatp satp).store .kernelSp ksp).store .kernelTrap ktrap).store .kernelHartid hartid).frame f.addr =
      y.frame f.addr := by
  rcases hf with rfl | ⟨r, rfl⟩ <;>
    rw [store_ne _ _ (by nofun), store_ne _ _ (by nofun), store_ne _ _ (by nofun), store_ne _ _ (by nofun)]

theorem Inv.usertrapret (h : Inv L s) (hp : (s.cpu c).run = .proc p) (hphase : (s.proc p).phase = .done)
    (satp usatp : Word) :
    Inv L (usertrapret L s c p satp usatp) ∧
      (∀ r, ((usertrapret L s c p satp usatp).cpu c).regs r = (s.proc p).expected r) ∧
      ((usertrapret L s c p satp usatp).cpu c).pc = (s.proc p).expectedPc := by
  obtain ⟨hregs, hpc⟩ := h.traps p (by rw [hphase]; nofun)
  unfold Trap.usertrapret
  refine ⟨h.cross hp rfl ⟨rfl, rfl⟩ ⟨fun _ => rfl, fun _ => rfl⟩ (fun hne => absurd rfl hne) nofun, fun r => ?_, ?_⟩
  · simp only [Sys.setProc, Sys.setCpu, Function.update_self]
    rw [userret_spec]
    simp only [Cpu.machine]
    rw [usertrapret_frame _ _ _ _ _ (.inr ⟨r, rfl⟩), hregs r]
  · simp only [Sys.setProc, Sys.setCpu, Function.update_self]
    rw [usertrapret_frame _ _ _ _ _ (.inl rfl), hpc]

omit [DecidableEq C] in
theorem Inv.exec (h : Inv L s) (hphase : (s.proc p).phase = .call) (entry sp : Word) :
    Inv L (s.setProc p (execImage (s.proc p) entry sp)) := by
  obtain ⟨hregs, -⟩ := h.traps p (by rw [hphase]; nofun)
  refine h.setProc (fun d hd => h.own d p hd) Iff.rfl (fun _ => ⟨fun r => ?_, ?_⟩) (h.call p)
  · have hexp : Proc.expected (execImage (s.proc p) entry sp) r = if r = .sp ∨ r = .a1 then sp else (s.proc p).trap.regs r := by
      simp [Proc.expected, execImage, Proc.store, hphase]
    rw [hexp]
    simp only [execImage, Proc.store]
    by_cases hsp : r = .sp
    · rw [if_pos (.inl hsp), hsp, Function.update_self]
    rw [Function.update_of_ne (reg_addr_ne hsp), Function.update_of_ne (reg_addr_ne_epc r)]
    by_cases ha1 : r = .a1
    · rw [if_pos (.inr ha1), ha1, Function.update_self]
    · rw [if_neg (not_or_intro hsp ha1), Function.update_of_ne (reg_addr_ne ha1), hregs r]
      simp only [Proc.expected, hphase, ne_eq, not_true_eq_false, and_false, if_false, hsp, ha1, or_self]
      split <;> rfl
  · simp only [execImage, Proc.store, Proc.expectedPc]
    rw [Function.update_of_ne (reg_addr_ne_epc .sp).symm, Function.update_self]

omit [DecidableEq C] in
theorem Inv.syscall (h : Inv L s) (hphase : (s.proc p).phase = .call) (result : Word) :
    Inv L (s.setProc p { (s.proc p).store (.reg .a0) result with phase := .done, result }) := by
  obtain ⟨hregs, hpc⟩ := h.traps p (by rw [hphase]; nofun)
  have hcall := h.call p hphase
  refine h.setProc (fun d hd => h.own d p hd) ⟨nofun, fun hu => by rw [hphase] at hu; cases hu⟩ (fun _ => ⟨fun r => ?_, ?_⟩) nofun
  · by_cases hr : r = .a0
    · simp [Proc.expected, Proc.store, hcall, hr]
    · simp only [Proc.store]
      rw [Function.update_of_ne (reg_addr_ne hr), hregs r]
      simp [Proc.expected, hr]
  · simp only [Proc.store]
    rw [Function.update_of_ne (reg_addr_ne_epc .a0).symm]
    exact hpc

theorem foldl_update {l : List Reg} {addr val : Reg → Word} (hinj : ∀ r ∈ l, ∀ q ∈ l, addr r = addr q → r = q)
    (mem : Word → Word) {r : Reg} (hr : r ∈ l) :
    l.foldl (fun mem r => Function.update mem (addr r) (val r)) mem (addr r) = val r := by
  induction l using List.reverseRecOn with
  | nil => cases hr
  | append_singleton l q ih =>
    rw [List.foldl_append]
    by_cases hrq : r = q
    · rw [hrq]
      exact Function.update_self ..
    · have hrl : r ∈ l := (List.mem_append.mp hr).resolve_right fun he => hrq (List.mem_singleton.mp he)
      refine (Function.update_of_ne (fun he => hrq (hinj r hr q (by simp) he)) ..).trans ?_
      exact ih (fun a ha b hb => hinj a (List.mem_append_left _ ha) b (List.mem_append_left _ hb)) hrl

theorem foldl_update_other {l : List Reg} {addr val : Reg → Word} (mem : Word → Word) {a : Word}
    (ha : ∀ r ∈ l, a ≠ addr r) : l.foldl (fun mem r => Function.update mem (addr r) (val r)) mem a = mem a := by
  induction l generalizing mem with
  | nil => rfl
  | cons q l ih =>
    exact (ih _ fun r hr => ha r (List.mem_cons_of_mem _ hr)).trans (Function.update_of_ne (ha q List.mem_cons_self) ..)

theorem contextOffset_lt : ∀ r ∈ context, contextOffset r < 112 := by decide

theorem contextOffset_inj : ∀ r ∈ context, ∀ q ∈ context, contextOffset r = contextOffset q → r = q := by decide

theorem Inv.fork (h : Inv L s) {q : P} (hphase : (s.proc p).phase = .call) (hoff : ∀ d, (s.cpu d).run ≠ .proc q) :
    Inv L (fork L s p q) := by
  obtain ⟨hregs, hpc⟩ := h.traps p (by rw [hphase]; nofun)
  have hcall := h.call p hphase
  generalize hz : ({ ({ s.proc q with frame := (s.proc p).frame }.store (.reg .a0) 0) with
    state := .used, phase := .done, trap := { (s.proc p).trap with call := true }, result := 0,
    image := (s.proc p).image } : Proc C) = z
  have hzphase : z.phase = .done := by rw [← hz]
  have hmatch : z.Matches := by
    rw [← hz]
    refine ⟨fun r => ?_, ?_⟩
    · by_cases hr : r = .a0
      · simp [Proc.expected, Proc.store, hr]
      · simp only [Proc.store]
        rw [Function.update_of_ne (reg_addr_ne hr), hregs r]
        simp [Proc.expected, hr]
    · simp only [Proc.store]
      rw [Function.update_of_ne (reg_addr_ne_epc .a0).symm, hpc]
      simp [Proc.expectedPc, hcall]
  have hself : (Trap.fork L s p q).proc q = z := by rw [← hz]; exact Function.update_self ..
  have hkeep : ∀ r, r ≠ q → (Trap.fork L s p q).proc r = s.proc r := fun r hr => Function.update_of_ne hr ..
  have hthread : ∀ i, i ≠ .proc q → (Trap.fork L s p q).thread i = s.thread i := fun i hi => Function.update_of_ne hi ..
  have hthreadq : (Trap.fork L s p q).thread (.proc q) = { s.thread (.proc q) with frames := [], saved := L.start q } :=
    Function.update_self ..
  refine ⟨h.uniq, h.place, fun d r hd => ?_, fun d r hd => ?_, h.sched, fun r hr => ?_, fun r => ?_, fun r => ?_,
    fun i hi => ?_, fun i => ?_⟩
  · rw [hkeep r fun he => hoff d (he ▸ hd)]
    exact h.own d r hd
  · rw [hkeep r fun he => hoff d (he ▸ hd)]
    exact h.mode d r hd
  · by_cases hrq : r = q
    · rw [hrq, hself, hzphase] at hr
      cases hr
    · rw [hkeep r hrq] at hr
      exact h.placed r hr
  · by_cases hrq : r = q
    · rw [hrq, hself]
      exact fun _ => hmatch
    · rw [hkeep r hrq]
      exact h.traps r
  · by_cases hrq : r = q
    · rw [hrq, hself, hzphase]
      nofun
    · rw [hkeep r hrq]
      exact h.call r
  · intro r hr
    by_cases hiq : i = .proc q
    · rw [hiq, hthreadq]
      exact foldl_update (fun a ha b hb he => contextOffset_inj a ha b hb (off_inj
        ((contextOffset_lt a ha).trans (by decide)) ((contextOffset_lt b hb).trans (by decide)) (add_left_cancel he))) _ hr
    · rw [hthread i hiq, ← h.contexts i hi r hr]
      exact foldl_update_other _ fun a ha => L.apart i (.proc q) hiq _ _ (contextOffset_lt r hr) (contextOffset_lt a ha)
  · by_cases hiq : i = .proc q
    · rw [hiq, hthreadq]
      nofun
    · rw [hthread i hiq]
      exact h.frames i

theorem Inv.switch (h : Inv L s) {i j : Tid C P} (hi : (s.cpu c).run = i) (hj : ∀ d, (s.cpu d).run ≠ j)
    (huser : (s.cpu c).user = false)
    (hplace : j = .scheduler c ∨ ∃ p, j = .proc p ∧ (s.proc p).state = .running ∧ (s.proc p).phase ≠ .user) :
    Inv L (switch L s c i j) ∧
      ∀ r ∈ context, ((switch L s c i j).cpu c).regs r = (s.thread j).saved r := by
  have hij : i ≠ j := fun he => hj c (hi.trans he)
  have ha : ∀ r ∈ context, r ≠ .a0 ∧ r ≠ .a1 := by decide
  generalize hargs : (⟨Function.update (Function.update (s.cpu c).regs .a0 (L.context i)) .a1 (L.context j),
    (s.cpu c).sscratch, s.context⟩ : Machine) = m
  have ha0 : m.regs .a0 = L.context i := by
    rw [← hargs]
    simp only [Function.update_of_ne (show Reg.a0 ≠ .a1 by decide), Function.update_self]
  have ha1 : m.regs .a1 = L.context j := by
    rw [← hargs]
    simp only [Function.update_self]
  have hmregs : ∀ r ∈ context, m.regs r = (s.cpu c).regs r := fun r hr => by
    rw [← hargs]
    simp only [Function.update_of_ne (ha r hr).1, Function.update_of_ne (ha r hr).2]
  have hmmem : m.mem = s.context := by rw [← hargs]
  have hcpu : (Trap.switch L s c i j).cpu c =
      ⟨(run swtch m).regs, (run swtch m).regs .ra, (s.cpu c).sepc, (run swtch m).sscratch, (s.cpu c).user, j⟩ := by
    simp only [Trap.switch, Cpu.machine, hargs, Sys.setCpu, Sys.setThread, Function.update_self]
  have hcpu' : ∀ d, d ≠ c → (Trap.switch L s c i j).cpu d = s.cpu d := fun d hd => Function.update_of_ne hd ..
  have hthreadi : (Trap.switch L s c i j).thread i = { s.thread i with saved := (s.cpu c).regs } := Function.update_self ..
  have hthread : ∀ k, k ≠ i → (Trap.switch L s c i j).thread k = s.thread k := fun k hk => Function.update_of_ne hk ..
  refine ⟨⟨fun d e => ?_, fun d => ?_, fun d q => ?_, fun d q => ?_, fun d e => ?_, fun q hq => ?_, h.traps, h.call,
    fun k hk r hr => ?_, fun k => ?_⟩, fun r hr => ?_⟩
  · by_cases hd : d = c <;> by_cases he : e = c
    · rw [hd, he]
      exact fun _ => rfl
    · rw [hd, hcpu, hcpu' e he]
      exact fun hr => absurd hr.symm (hj e)
    · rw [he, hcpu, hcpu' d hd]
      exact fun hr => absurd hr (hj d)
    · rw [hcpu' d hd, hcpu' e he]
      exact h.uniq d e
  · by_cases hd : d = c
    · rw [hd, hcpu]
      exact hplace.imp_right fun ⟨p, hp, _⟩ => ⟨p, hp⟩
    · rw [hcpu' d hd]
      exact h.place d
  · by_cases hd : d = c
    · rw [hd, hcpu]
      intro hjq
      rcases hplace with hs | ⟨p, hp, hstate, -⟩
      · rw [show j = .proc q from hjq] at hs
        cases hs
      · rw [show j = .proc q from hjq] at hp
        cases hp
        exact .inl hstate
    · rw [hcpu' d hd]
      exact h.own d q
  · by_cases hd : d = c
    · rw [hd, hcpu]
      intro hjq
      rcases hplace with hs | ⟨p, hp, -, hphase⟩
      · rw [show j = .proc q from hjq] at hs
        cases hs
      · rw [show j = .proc q from hjq] at hp
        cases hp
        simp only [huser, Bool.false_eq_true, false_iff]
        exact hphase
    · rw [hcpu' d hd]
      exact h.mode d q
  · by_cases hd : d = c
    · rw [hd, hcpu]
      exact fun _ => huser
    · rw [hcpu' d hd]
      exact h.sched d e
  · obtain ⟨d, hd⟩ := h.placed q hq
    by_cases hdc : d = c
    · have hu := (h.mode d q hd).mpr hq
      rw [hdc, huser] at hu
      cases hu
    · exact ⟨d, by rw [hcpu' d hdc]; exact hd⟩
  · have hkj : k ≠ j := fun he => hk c (by rw [hcpu, he])
    have hmem : (Trap.switch L s c i j).context = (run swtch m).mem := by simp only [Trap.switch, Cpu.machine, hargs]
    rw [hmem]
    by_cases hki : k = i
    · rw [hki, hthreadi, ← ha0, swtch_mem m hr]
      exact hmregs r hr
    · rw [hthread k hki, swtch_other, hmmem]
      · refine h.contexts k (fun d => ?_) r hr
        by_cases hd : d = c
        · rw [hd, hi]
          exact Ne.symm hki
        · rw [← hcpu' d hd]
          exact hk d
      · intro l hl
        rw [ha0]
        exact L.apart k i hki _ _ (contextOffset_lt r hr) hl
  · by_cases hki : k = i
    · rw [hki, hthreadi]
      exact h.frames i
    · rw [hthread k hki]
      exact h.frames k
  · rw [hcpu]
    refine (swtch_regs m hr fun k l hk hl => ?_).trans ?_
    · rw [ha0, ha1]
      exact L.apart j i hij.symm k l hk hl
    · rw [ha1, hmmem]
      exact h.contexts j hj r hr

theorem Inv.toScheduler (h : Inv L s) (hp : (s.cpu c).run = .proc p) (huser : (s.cpu c).user = false) :
    Inv L (Trap.switch L s c (.proc p) (.scheduler c)) ∧ ∀ r ∈ context,
      ((Trap.switch L s c (.proc p) (.scheduler c)).cpu c).regs r = (s.thread (.scheduler c)).saved r := by
  refine h.switch hp (fun d hd => ?_) huser (.inl rfl)
  rcases h.place d with hs | ⟨q, hq⟩
  · rw [hd] at hs
    cases hs
    rw [hp] at hd
    cases hd
  · rw [hd] at hq
    cases hq

theorem Inv.toProc (h : Inv L s) (hrun : (s.cpu c).run = .scheduler c) (hlock : (s.proc p).lock = some c)
    (hstate : (s.proc p).state = .runnable) :
    Inv L (Trap.switch L (s.setProc p { s.proc p with state := .running }) c (.scheduler c) (.proc p)) ∧ ∀ r ∈ context,
      ((Trap.switch L (s.setProc p { s.proc p with state := .running }) c (.scheduler c) (.proc p)).cpu c).regs r =
        (s.thread (.proc p)).saved r := by
  have hoff := h.unplaced hlock (by rw [hrun]; nofun) (by rw [hstate]; nofun)
  have hphase : (s.proc p).phase ≠ .user := fun hu => by
    obtain ⟨d, hd⟩ := h.placed p hu
    exact hoff d hd
  have hinv : Inv L (s.setProc p { s.proc p with state := .running }) :=
    h.setProc (fun d hd => absurd hd (hoff d)) Iff.rfl (h.traps p) (h.call p)
  have hself : (s.setProc p { s.proc p with state := .running }).proc p = { s.proc p with state := .running } :=
    Function.update_self ..
  refine hinv.switch hrun hoff (h.sched c c hrun) (.inr ⟨p, rfl, ?_, ?_⟩)
  · rw [hself]
  · rw [hself]
    exact hphase

omit [DecidableEq C] [DecidableEq P] in
theorem Frame.OnStack.congr {f : Frame} {old new : Word → Word} (h : f.OnStack old)
    (hsame : ∀ k, k < 256 → new (f.base + off k) = old (f.base + off k)) : f.OnStack new := fun x hx =>
  (hsame x.2 (slots_lt x hx)).trans (h x hx)

theorem Inv.kernelvec (h : Inv L s)
    (hclear : ∀ f ∈ (s.cur c).frames, ∀ k l, k < 256 → l < 256 → f.base + off k ≠ (s.cpu c).regs .sp + -256 + off l) :
    Inv L ((s.setCpu c { s.cpu c with regs := (run kernelvecSave ((s.cpu c).machine (s.cur c).stack)).regs,
                                      sepc := (s.cpu c).pc }).setThread (s.cpu c).run
      { s.cur c with stack := (run kernelvecSave ((s.cpu c).machine (s.cur c).stack)).mem,
                     frames := ⟨(s.cpu c).regs, (s.cpu c).pc⟩ :: (s.cur c).frames }) := by
  have hnew : (⟨(s.cpu c).regs, (s.cpu c).pc⟩ : Frame).OnStack
      (run kernelvecSave ((s.cpu c).machine (s.cur c).stack)).mem := by
    intro x hx
    have hsave := kernelvecSave_mem ((s.cpu c).machine (s.cur c).stack) hx
    simp only [Cpu.machine] at hsave ⊢
    exact hsave
  have hold : ∀ f ∈ (s.cur c).frames, f.OnStack (run kernelvecSave ((s.cpu c).machine (s.cur c).stack)).mem := by
    intro f hf
    refine (h.frames _ f hf).congr fun k hk => ?_
    rw [kernelvecSave_other]
    · simp only [Cpu.machine, Sys.cur]
    · exact fun l hl => hclear f hf k l hk hl
  refine h.inside rfl rfl fun f hf => ?_
  rcases List.mem_cons.mp hf with rfl | hf
  · exact hnew
  · exact hold f hf

omit [DecidableEq C] [DecidableEq P] in
theorem Inv.kernelret_regs (h : Inv L s) {f : Frame} (hf : f ∈ (s.cur c).frames) (hsp : (s.cpu c).regs .sp = f.base)
    (hsaved : ∀ r ∈ calleeSaved, (s.cpu c).regs r = f.regs r) {r : Reg} (hr : r ≠ .tp) :
    (run kernelvecRestore ((s.cpu c).machine (s.cur c).stack)).regs r = f.regs r := by
  have hframe : f.OnStack ((s.cpu c).machine (s.cur c).stack).mem := h.frames _ f hf
  exact kernelvecRestore_spec _ f.regs hsp hsaved hframe hr

end

/-! ### Whole runs -/

section
variable {L : Layout C P} {s t : Sys C P} {a : Action C P}

def Restores (s t : Sys C P) : Action C P → Prop
  | .usertrapret c _ _ => ∀ p, (s.cpu c).run = .proc p →
      (t.cpu c).user = true ∧ (t.cpu c).pc = (s.proc p).expectedPc ∧ ∀ r, (t.cpu c).regs r = (s.proc p).expected r
  | .kernelret c => ∀ f, (s.cur c).frames.head? = some f →
      (t.cpu c).pc = f.sepc ∧ ∀ r, r ≠ .tp → (t.cpu c).regs r = f.regs r
  | .sched c => ∀ r ∈ context, (t.cpu c).regs r = (s.thread (.scheduler c)).saved r
  | .scheduler c p => ∀ r ∈ context, (t.cpu c).regs r = (s.thread (.proc p)).saved r
  | _ => True

omit [DecidableEq C] [DecidableEq P] in
theorem onProc_ok {c : C} {A : P → Except Refusal (Sys C P)}
    (h : (match (s.cpu c).run with
      | .proc p => A p
      | .scheduler _ => .error .disabled) = .ok t) : ∃ p, (s.cpu c).run = .proc p ∧ A p = .ok t := by
  cases hrun : (s.cpu c).run with
  | scheduler d => rw [hrun] at h; cases h
  | proc p => rw [hrun] at h; exact ⟨p, rfl, h⟩

omit [DecidableEq C] [DecidableEq P] in
theorem ite_ok {b : Prop} [Decidable b] {x : Sys C P}
    (h : (if b then .ok x else .error .disabled : Except Refusal (Sys C P)) = .ok t) : b ∧ x = t := by
  by_cases hb : b
  · rw [if_pos hb] at h
    exact ⟨hb, Except.ok.inj h⟩
  · rw [if_neg hb] at h
    cases h

theorem step_restores (h : Inv L s) (hok : Conforms s a) (hs : step L s a = .ok t) : Inv L t ∧ Restores s t a := by
  cases a with
  | user c regs pc =>
    obtain ⟨-, rfl⟩ := ite_ok hs
    refine ⟨?_, trivial⟩
    have hinv := h.inside (c := c) (x := { s.cpu c with regs, pc }) (y := s.cur c) rfl rfl (h.frames _)
    have hsame : (s.setCpu c { s.cpu c with regs, pc }).setThread (s.cpu c).run (s.cur c) =
        s.setCpu c { s.cpu c with regs, pc } := by
      simp only [Sys.setThread, Sys.setCpu, Sys.cur, Function.update_eq_self]
    rwa [hsame] at hinv
  | code c regs pc stack =>
    by_cases hu : (s.cpu c).user = true
    · rw [step, if_pos hu] at hs
      cases hs
    rw [step, if_neg hu] at hs
    obtain rfl := Except.ok.inj hs
    exact ⟨h.inside rfl rfl fun f hf => (h.frames _ f hf).congr (hok f hf), trivial⟩
  | usertrap c call =>
    obtain ⟨p, hp, hs⟩ := onProc_ok hs
    obtain ⟨-, rfl⟩ := ite_ok hs
    exact ⟨h.usertrap hp call, trivial⟩
  | usertrapret c satp usatp =>
    obtain ⟨p, hp, hs⟩ := onProc_ok hs
    obtain ⟨hphase, rfl⟩ := ite_ok hs
    obtain ⟨hinv, hregs, hpc⟩ := h.usertrapret hp hphase satp usatp
    refine ⟨hinv, fun q hq => ?_⟩
    rw [hp] at hq
    cases hq
    have huser : ((usertrapret L s c p satp usatp).cpu c).user = true := by
      simp only [usertrapret, Sys.setProc, Sys.setCpu, Function.update_self]
    exact ⟨huser, hpc, hregs⟩
  | exec c entry sp =>
    obtain ⟨p, -, hs⟩ := onProc_ok hs
    obtain ⟨hphase, rfl⟩ := ite_ok hs
    exact ⟨h.exec hphase entry sp, trivial⟩
  | fork c q =>
    obtain ⟨p, -, hs⟩ := onProc_ok hs
    obtain ⟨hphase, rfl⟩ := ite_ok hs
    obtain ⟨hne, hlock, hstate⟩ := hok
    exact ⟨h.fork hphase (h.unplaced hlock hne (by rw [hstate]; nofun)), trivial⟩
  | syscall c result =>
    obtain ⟨p, -, hs⟩ := onProc_ok hs
    obtain ⟨hphase, rfl⟩ := ite_ok hs
    exact ⟨h.syscall hphase result, trivial⟩
  | kernelvec c =>
    by_cases hu : (s.cpu c).user = true
    · rw [step, if_pos hu] at hs
      cases hs
    rw [step, if_neg hu] at hs
    obtain rfl := Except.ok.inj hs
    exact ⟨h.kernelvec hok, trivial⟩
  | kernelret c =>
    by_cases hu : (s.cpu c).user = true
    · rw [step, if_pos hu] at hs
      cases hs
    rw [step, if_neg hu] at hs
    cases hframes : (s.cur c).frames with
    | nil => rw [hframes] at hs; cases hs
    | cons f frames =>
      rw [hframes] at hs
      obtain rfl := Except.ok.inj hs
      have hmem : ∀ g ∈ f :: frames, g ∈ (s.cur c).frames := fun g hg => by rwa [hframes]
      obtain ⟨hsp, hsaved⟩ := hok f (by rw [hframes]; rfl)
      refine ⟨h.inside rfl rfl fun g hg => h.frames _ g (hmem g (List.mem_cons_of_mem _ hg)), fun g hg => ?_⟩
      rw [hframes] at hg
      cases hg
      simp only [Sys.setThread, Sys.setCpu, Function.update_self, true_and]
      exact fun r hr => h.kernelret_regs (hmem f List.mem_cons_self) hsp hsaved hr
  | sched c =>
    obtain ⟨p, hp, hs⟩ := onProc_ok hs
    obtain ⟨⟨huser, -, -⟩, rfl⟩ := ite_ok hs
    exact h.toScheduler hp huser
  | scheduler c p =>
    obtain ⟨⟨hrun, hlock, hstate⟩, rfl⟩ := ite_ok hs
    exact h.toProc hrun hlock hstate
  | acquire c p =>
    obtain ⟨⟨-, hlock⟩, rfl⟩ := ite_ok hs
    refine ⟨h.setProc (fun d hd => ?_) Iff.rfl (h.traps p) (h.call p), trivial⟩
    -- nobody holds the lock, so it is running
    refine .inl ((h.own d p hd).resolve_right fun he => ?_)
    rw [hlock] at he
    cases he
  | release c p =>
    obtain ⟨⟨-, hlock⟩, rfl⟩ := ite_ok hs
    refine ⟨h.setProc (fun d hd => .inl ?_) Iff.rfl (h.traps p) (h.call p), trivial⟩
    rcases h.own d p hd with hrunning | he
    · exact hrunning
    · rw [hlock] at he
      cases he
      exact hok hd
  | setState c p st =>
    obtain ⟨⟨-, hlock⟩, rfl⟩ := ite_ok hs
    refine ⟨h.setProc (fun d hd => .inr ?_) Iff.rfl (h.traps p) (h.call p), trivial⟩
    -- a process on another processor is running, and its state is its own
    rcases hok.2 with hrun | hne
    · rw [h.uniq d c (hd.trans hrun.symm)]
      exact hlock
    · exact (h.own d p hd).resolve_left hne

theorem Reached.inv (h : Reached L s) : Inv L s :=
  Reach.invariant (I := Inv L) (fun _ => Start.inv) (fun _ _ _ hinv hok hs => (step_restores hinv hok hs).1) h

/-- The return to user space gives the process the registers and `pc` of its last trap, but for the result of a system
    call and for a new image; the end of an interrupt gives kernel code all its registers but `tp`; and `swtch` gives
    a thread its own. -/
theorem registers_survive (h : Reached L s) (hok : Conforms s a) (hs : step L s a = .ok t) : Restores s t a :=
  (step_restores h.inv hok hs).2
def oneLayout : Layout Unit Unit where
  context i := match i with
    | .scheduler _ => 0
    | .proc _ => 4096
  apart i j hij k l hk hl he := by
    have hnat := congrArg BitVec.toNat he
    match i, j with
    | .scheduler _, .scheduler _ => exact hij rfl
    | .proc _, .proc _ => exact hij rfl
    | .scheduler _, .proc _ =>
      simp [off] at hnat
      omega
    | .proc _, .scheduler _ =>
      simp [off] at hnat
      omega
  kstackTop _ := 8192
  usertrap := 0
  forkret := 0

def oneStart : Sys Unit Unit where
  cpu _ := ⟨fun _ => 0, 0, 0, 0, false, .scheduler ()⟩
  thread _ := ⟨fun _ => 0, [], fun _ => 0⟩
  proc _ := ⟨fun _ => 0, .runnable, none, .done, ⟨fun _ => 0, 0, false⟩, 0, none⟩
  context _ := 0

theorem oneStart_start : Start oneLayout oneStart where
  run _ := ⟨rfl, rfl⟩
  frames _ := rfl
  proc _ := ⟨rfl, fun _ => by simp [oneStart, Proc.expected], rfl⟩
  context _ _ _ := rfl

def plain (s : Sys Unit Unit) : Action Unit Unit → Bool
  | .user .. | .usertrap .. | .syscall .. | .scheduler .. | .acquire .. => true
  | .usertrapret c _ _ => (s.cur c).frames.isEmpty
  | _ => false

theorem plain_conforms (s : Sys Unit Unit) (a : Action Unit Unit) (h : plain s a = true) : Conforms s a := by
  cases a with
  | usertrapret c => exact List.isEmpty_iff.mp h
  | user | usertrap | syscall | scheduler | acquire => trivial
  | _ => cases h

theorem registers_survive_call : ∃ s t : Sys Unit Unit, Reached oneLayout s ∧
    step oneLayout s (.usertrapret () 0 0) = .ok t ∧ (t.cpu ()).regs .a0 = 7 ∧ (t.cpu ()).regs .a1 = 2 := by
  have hrun : (Lib.run (step oneLayout) plain oneStart
      [.acquire () (), .scheduler () (), .usertrapret () 0 0,
       .user () (fun r => if r = .a0 then 1 else if r = .a1 then 2 else 0) 4, .usertrap () true, .syscall () 7]).any
      (fun s => decide ((s.cpu ()).run = .proc () ∧ (s.proc ()).phase = .done ∧ (s.cur ()).frames.isEmpty = true ∧
        (s.proc ()).expected .a0 = 7 ∧ (s.proc ()).expected .a1 = 2)) = true := by decide +kernel
  obtain ⟨s, hs, hlast⟩ := (Option.any_eq_true _ _).mp hrun
  obtain ⟨hproc, hphase, hframes, ha0, ha1⟩ := of_decide_eq_true hlast
  have hreach : Reached oneLayout s := Reach.of_run plain_conforms _ (.init oneStart_start) hs
  have hstep : step oneLayout s (.usertrapret () 0 0) = .ok (usertrapret oneLayout s () () 0 0) := by
    simp only [step, hproc, hphase, if_true]
  have hok : Conforms s (.usertrapret () 0 0) := List.isEmpty_iff.mp hframes
  obtain ⟨-, -, hregs⟩ := registers_survive hreach hok hstep () hproc
  exact ⟨s, _, hreach, hstep, (hregs _).trans ha0, (hregs _).trans ha1⟩

end

end Xv6.Trap
