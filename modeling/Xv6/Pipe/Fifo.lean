import Xv6.Lib.Ring
import Xv6.Pipe.Basic

/-! Pipes are first in, first out, however the calls interleave and however often the counters wrap. -/

namespace Xv6.Pipe
open Lib

variable {N : Nat} {s t : Sys N} {p : Fin N}

def Pc.job : Pc → Option Job
  | .enter (.writer job) | .writing job | .wakeup (.full job) _ | .nap (.writer job) | .doze (.writer job)
  | .asleep (.writer job) => some job
  | _ => none

/-- The bytes of call `id`, as positions in what it writes, in the order in which they went in. -/
def indices (ins : List Byte) (id : Nat) : List Nat := (ins.filter (·.id = id)).map (·.index)

abbrev Holds (pi : Pipe) (ins : List Byte) (outs : List UInt8) : Prop :=
  Ring (2 ^ 32) pi.data pi.nread.toNat pi.nwrite.toNat (ins.map (·.val)) outs

structure Fifo (s : Sys N) : Prop where
  ring : Holds s.pipe s.ins s.outs
  order : ∀ id, ∃ m, indices s.ins id = List.range m
  fresh : ∀ b ∈ s.ins, b.id < s.calls
  job : ∀ p job, (s.proc p).pc.job = some job → job.id < s.calls ∧ indices s.ins job.id = List.range job.i
  inj : ∀ p q job job', (s.proc p).pc.job = some job → (s.proc q).pc.job = some job' → job.id = job'.id → p = q

theorem Start.fifo (h : Start s) : Fifo s where
  ring := by
    obtain ⟨data, hpipe⟩ := h.pipe
    rw [hpipe, h.ins, h.outs]
    exact Ring.empty data
  order id := ⟨0, by rw [h.ins]; rfl⟩
  fresh b hb := by rw [h.ins] at hb; cases hb
  job p job hp := by rw [h.pc p] at hp; cases hp
  inj p q job job' hp := by rw [h.pc p] at hp; cases hp

theorem isFull_iff (pi : Pipe) : pi.isFull ↔ pi.nwrite.toNat = (pi.nread.toNat + PIPESIZE) % 2 ^ 32 := by
  unfold isFull
  rw [← UInt32.toNat_inj, UInt32.toNat_add]
  rfl

theorem isEmpty_iff (pi : Pipe) : pi.isEmpty ↔ pi.nread.toNat = pi.nwrite.toNat := UInt32.toNat_inj.symm

theorem holds_put {pi : Pipe} {ins : List Byte} {outs : List UInt8} (h : Holds pi ins outs) (hfull : ¬ pi.isFull)
    (b : Byte) : Holds (pi.put b.val) (ins ++ [b]) outs := by
  have hring := h.push (by decide) (by decide) (fun hw => hfull ((isFull_iff pi).mpr hw)) b.val
  unfold Holds
  rw [List.map_append, show (pi.put b.val).nwrite.toNat = (pi.nwrite.toNat + 1) % 2 ^ 32 from UInt32.toNat_add ..]
  exact hring

theorem holds_take {pi : Pipe} {ins : List Byte} {outs : List UInt8} (h : Holds pi ins outs) (hempty : ¬ pi.isEmpty) :
    Holds pi.take ins (outs ++ [pi.next]) := by
  have hring := h.pop (by decide) (by decide) fun hw => hempty ((isEmpty_iff pi).mpr hw)
  unfold Holds
  rw [show pi.take.nread.toNat = (pi.nread.toNat + 1) % 2 ^ 32 from UInt32.toNat_add ..]
  exact hring

theorem holds_close {pi : Pipe} {ins : List Byte} {outs : List UInt8} (h : Holds pi ins outs) (writable : Bool) :
    Holds (pi.close writable) ins outs := by
  cases writable <;> exact h

theorem indices_append (ins : List Byte) (b : Byte) (id : Nat) :
    indices (ins ++ [b]) id = indices ins id ++ if b.id = id then [b.index] else [] := by
  unfold indices
  by_cases h : b.id = id <;> simp [h]

def Stays (s t : Sys N) : Prop := ∀ q, (t.proc q).pc.job = none ∨ (t.proc q).pc.job = (s.proc q).pc.job

theorem Stays.job (h : Stays s t) {q : Fin N} {job : Job} (hq : (t.proc q).pc.job = some job) :
    (s.proc q).pc.job = some job := by
  rcases h q with hn | he
  · rw [hn] at hq; cases hq
  · rw [← he]; exact hq

theorem Stays.set {x : Proc} (h : x.pc.job = none ∨ x.pc.job = (s.proc p).pc.job)
    (ht : t.proc = Function.update s.proc p x) : Stays s t := fun q => by
  rw [ht]
  rcases eq_or_ne q p with rfl | hq
  · rw [Function.update_self]; exact h
  · rw [Function.update_of_ne hq]; exact .inr rfl

theorem Fifo.keep (inv : Fifo s) (hring : Holds t.pipe t.ins t.outs) (hins : t.ins = s.ins) (hcalls : t.calls = s.calls)
    (hstay : Stays s t) : Fifo t where
  ring := hring
  order id := by rw [hins]; exact inv.order id
  fresh b hb := by
    rw [hins] at hb
    rw [hcalls]
    exact inv.fresh b hb
  job q job hq := by
    rw [hins, hcalls]
    exact inv.job q job (hstay.job hq)
  inj q r job job' hq hr := inv.inj q r job job' (hstay.job hq) (hstay.job hr)

theorem Fifo.aside (inv : Fifo s) {x : Proc} (hx : x.pc.job = none ∨ x.pc.job = (s.proc p).pc.job)
    (ht : t.proc = Function.update s.proc p x) (hpipe : t.pipe = s.pipe) (hins : t.ins = s.ins) (houts : t.outs = s.outs)
    (hcalls : t.calls = s.calls) : Fifo t :=
  inv.keep (by rw [hpipe, hins, houts]; exact inv.ring) hins hcalls (.set hx ht)

theorem Fifo.goto (inv : Fifo s) {pc : Pc} (hpc : pc.job = none ∨ pc.job = (s.proc p).pc.job) : Fifo (s.goto p pc) :=
  inv.aside (x := (s.proc p).goto pc) hpc rfl rfl rfl rfl rfl

theorem fifo_call (inv : Fifo s) (n : Int) : Fifo (enter s p (.write n)) := by
  have hnew : indices s.ins s.calls = [] := by
    simp only [indices, List.map_eq_nil_iff, List.filter_eq_nil_iff, decide_eq_true_eq]
    exact fun b hb he => absurd (inv.fresh b hb) (by omega)
  have hself : ((enter s p (.write n)).proc p).pc.job = some ⟨n, 0, s.calls⟩ := by
    simp [enter, Sys.goto, Sys.set, Proc.goto, Pc.job]
  have hother : ∀ q, q ≠ p → (enter s p (.write n)).proc q = s.proc q := fun q hq => by
    simp [enter, Sys.goto, Sys.set, hq]
  have hlt : ∀ q job, q ≠ p → ((enter s p (.write n)).proc q).pc.job = some job → job.id < s.calls := fun q job hq hj => by
    rw [hother q hq] at hj
    exact (inv.job q job hj).1
  refine ⟨inv.ring, inv.order, fun b hb => Nat.lt_succ_of_lt (inv.fresh b hb), fun q job hq => ?_,
    fun q r job job' hq hr he => ?_⟩
  · rcases eq_or_ne q p with rfl | hne
    · rw [hself] at hq
      cases hq
      exact ⟨Nat.lt_succ_self _, hnew⟩
    · rw [hother q hne] at hq
      exact ⟨Nat.lt_succ_of_lt (inv.job q job hq).1, (inv.job q job hq).2⟩
  · rcases eq_or_ne q p with rfl | hq'
    · rcases eq_or_ne r q with rfl | hr'
      · rfl
      · rw [hself] at hq
        cases hq
        exact absurd (hlt r job' hr' hr) (by simp [← he])
    · rcases eq_or_ne r p with rfl | hr'
      · rw [hself] at hr
        cases hr
        exact absurd (hlt q job hq' hq) (by simp [he])
      · rw [hother q hq'] at hq
        rw [hother r hr'] at hr
        exact inv.inj q r job job' hq hr he

theorem fifo_put (inv : Fifo s) {job : Job} (hpc : (s.proc p).pc = .writing job) (hfull : ¬ s.pipe.isFull) (ch : UInt8) :
    Fifo ((s.put job ch).goto p (.writing { job with i := job.i + 1 })) := by
  have hjob := inv.job p job (by rw [hpc]; rfl)
  have hself : (((s.put job ch).goto p (.writing { job with i := job.i + 1 })).proc p).pc.job =
      some { job with i := job.i + 1 } := by
    simp [Sys.goto, Sys.set, Proc.goto, Pc.job]
  have hother : ∀ q, q ≠ p → ((s.put job ch).goto p (.writing { job with i := job.i + 1 })).proc q = s.proc q :=
    fun q hq => by simp [Sys.goto, Sys.set, Sys.put, hq]
  have hnext : indices (s.ins ++ [⟨job.id, job.i, ch⟩]) job.id = List.range (job.i + 1) := by
    rw [indices_append, if_pos rfl, hjob.2, List.range_succ]
  have hold : ∀ id, job.id ≠ id → indices (s.ins ++ [⟨job.id, job.i, ch⟩]) id = indices s.ins id := fun id hid => by
    rw [indices_append, if_neg hid, List.append_nil]
  -- no other process is in this call
  have hne : ∀ q job', q ≠ p → (s.proc q).pc.job = some job' → job.id ≠ job'.id := fun q job' hq hj he =>
    hq (inv.inj q p job' job hj (by rw [hpc]; rfl) he.symm)
  refine ⟨holds_put inv.ring hfull ⟨job.id, job.i, ch⟩, fun id => ?_, fun b hb => ?_, fun q job' hq => ?_,
    fun q r j j' hq hr he => ?_⟩
  · by_cases hid : job.id = id
    · exact ⟨job.i + 1, hid ▸ hnext⟩
    · obtain ⟨m, hm⟩ := inv.order id
      exact ⟨m, (hold id hid).trans hm⟩
  · rcases List.mem_append.mp hb with hb | hb
    · exact inv.fresh b hb
    · obtain rfl := List.mem_singleton.mp hb
      exact hjob.1
  · rcases eq_or_ne q p with rfl | hq'
    · rw [hself] at hq
      cases hq
      exact ⟨hjob.1, hnext⟩
    · rw [hother q hq'] at hq
      obtain ⟨hlt, hi⟩ := inv.job q job' hq
      exact ⟨hlt, (hold _ (hne q job' hq' hq)).trans hi⟩
  · rcases eq_or_ne q p with rfl | hq'
    · rcases eq_or_ne r q with rfl | hr'
      · rfl
      · rw [hself] at hq
        rw [hother r hr'] at hr
        cases hq
        exact absurd he (hne r j' hr' hr)
    · rcases eq_or_ne r p with rfl | hr'
      · rw [hself] at hr
        rw [hother q hq'] at hq
        cases hr
        exact absurd he.symm (hne q j hq' hq)
      · rw [hother q hq'] at hq
        rw [hother r hr'] at hr
        exact inv.inj q r j j' hq hr he

theorem fifo_take (inv : Fifo s) {pc : Pc} (hempty : ¬ s.pipe.isEmpty) (hpc : pc.job = none) :
    Fifo (s.take.goto p pc) :=
  inv.keep (holds_take inv.ring hempty) rfl rfl (.set (x := (s.proc p).goto pc) (.inl hpc) rfl)

theorem fifo_writeRound (inv : Fifo s) {job : Job} {copy : Option UInt8} (hpc : (s.proc p).pc = .writing job) :
    Fifo (writeRound s p copy job) := by
  unfold writeRound
  split
  · split
    · exact inv.aside (x := (s.proc p).return_ (-1)) (.inl rfl) rfl rfl rfl rfl rfl
    · split
      · exact inv.goto (.inr (by rw [hpc]; rfl))
      · cases copy with
        | none => exact inv.goto (.inl rfl)
        | some ch => exact fifo_put inv hpc ‹_› ch
  · exact inv.goto (.inl rfl)

theorem fifo_readRound (inv : Fifo s) {n : Int} : Fifo (readRound s p n) := by
  unfold readRound
  split
  · split
    · exact inv.aside (x := (s.proc p).return_ (-1)) (.inl rfl) rfl rfl rfl rfl rfl
    · exact inv.goto (.inl rfl)
  · exact inv.goto (.inl rfl)

theorem fifo_copyRound (inv : Fifo s) {n : Int} {i : Nat} {copy : Option UInt8} : Fifo (copyRound s p copy n i) := by
  unfold copyRound
  split
  · rename_i hgo
    split
    · exact fifo_take inv hgo.2 rfl
    · exact fifo_take inv hgo.2 rfl
  · exact inv.goto (.inl rfl)

theorem fifo_afterWakeup (inv : Fifo s) {after : After} {k : Nat} (hpc : (s.proc p).pc = .wakeup after k) :
    Fifo (afterWakeup s p after) := by
  cases after with
  | full job => exact inv.goto (.inr (by rw [hpc]; rfl))
  | wrote i => exact inv.aside (x := (s.proc p).return_ i) (.inl rfl) rfl rfl rfl rfl rfl
  | took i => exact inv.aside (x := (s.proc p).return_ i) (.inl rfl) rfl rfl rfl rfl rfl
  | closed writable => exact inv.aside (x := (s.proc p).return_ 0) (.inl rfl) rfl rfl rfl rfl rfl

theorem fifo_wake (inv : Fifo s) (c : Chan) : Fifo (s.set p ((s.proc p).wake c)) := by
  refine inv.aside (x := (s.proc p).wake c) (.inr ?_) rfl rfl rfl rfl rfl
  rw [pc_wake]

theorem fifo_run (inv : Fifo s) {copy : Option UInt8} (h : runPc s p copy (s.proc p).pc = .ok t) : Fifo t := by
  cases hpc : (s.proc p).pc with
  | enter w =>
    rw [hpc] at h
    cases w with
    | writer job =>
      simp only [runPc] at h
      split at h <;> cases h
      exact inv.aside (x := (s.proc p).goto (.writing job)) (.inr (by rw [hpc]; rfl)) rfl rfl rfl rfl rfl
    | reader n =>
      simp only [runPc] at h
      split at h <;> cases h
      exact inv.aside (x := (s.proc p).goto (.reading n)) (.inl rfl) rfl rfl rfl rfl rfl
  | closing writable =>
    simp only [hpc, runPc] at h
    split at h <;> cases h
    exact inv.keep (holds_close inv.ring writable) rfl rfl
      (.set (x := (s.proc p).goto (.wakeup (.closed writable) 0)) (.inl rfl) rfl)
  | writing job =>
    simp only [hpc, runPc] at h
    cases h
    exact fifo_writeRound inv hpc
  | reading n =>
    simp only [hpc, runPc] at h
    cases h
    exact fifo_readRound inv
  | copying n i =>
    simp only [hpc, runPc] at h
    cases h
    exact fifo_copyRound inv
  | wakeup after k =>
    have hjob : ∀ k', (Pc.wakeup after k').job = (s.proc p).pc.job := fun k' => by
      rw [hpc]
      cases after <;> rfl
    simp only [hpc, runPc] at h
    split at h
    · rename_i hk
      split at h
      · cases h
        exact inv.goto (.inr (hjob _))
      · rename_i hp
        split at h <;> cases h
        have hne : p ≠ ⟨k, hk⟩ := fun he => hp (congrArg Fin.val he).symm
        refine (fifo_wake inv after.chan).goto (.inr ?_)
        rw [hjob, set_ne s _ hne]
    · cases h
      exact fifo_afterWakeup inv hpc
  | nap w =>
    simp only [hpc, runPc] at h
    cases h
    exact inv.aside (x := (s.proc p).goto (.doze w)) (.inr (by rw [hpc]; cases w <;> rfl)) rfl rfl rfl rfl rfl
  | doze w =>
    simp only [hpc, runPc] at h
    cases h
    exact inv.aside (x := (s.proc p).sleepOn w) (.inr (by rw [hpc]; cases w <;> rfl)) rfl rfl rfl rfl rfl
  | user | asleep w => simp [hpc, runPc] at h

theorem fifo_step {a : Action N} (inv : Fifo s) (h : step s a = .ok t) : Fifo t := by
  cases a with
  | schedule p =>
    simp only [step] at h
    split at h <;> cases h
    refine inv.aside (x := (s.proc p).resume) (.inr ?_) rfl rfl rfl rfl rfl
    unfold Proc.resume
    split
    · rename_i w hpc; rw [hpc]; cases w <;> rfl
    · rfl
  | yield p =>
    simp only [step] at h
    split at h <;> cases h
    exact inv.aside (x := { s.proc p with state := .runnable }) (.inr rfl) rfl rfl rfl rfl rfl
  | sleep p =>
    simp only [step] at h
    split at h <;> cases h
    exact inv.aside (x := { s.proc p with state := .sleeping, chan := some .other }) (.inr rfl) rfl rfl rfl rfl rfl
  | reuse p =>
    simp only [step] at h
    split at h <;> cases h
    exact inv.aside (x := { s.proc p with state := .runnable, chan := none, killed := false, ret := 0 }) (.inr rfl)
      rfl rfl rfl rfl rfl
  | call p c =>
    simp only [step] at h
    split at h <;> cases h
    cases c with
    | write n => exact fifo_call inv n
    | read n => exact inv.goto (.inl rfl)
    | close writable => exact inv.goto (.inl rfl)
  | run p copy =>
    simp only [step] at h
    split at h
    · exact fifo_run inv h
    · cases h
  | kill p =>
    simp only [step] at h
    split at h <;> cases h
    exact inv.aside (x := (s.proc p).killIt) (.inr rfl) rfl rfl rfl rfl rfl
  | wake p =>
    simp only [step] at h
    split at h <;> cases h
    exact fifo_wake inv .other

theorem fifo_reach {ok : Sys N → Action N → Prop} (h : Reach Start step ok s) : Fifo s :=
  h.invariant (fun _ => Start.fifo) fun _ _ _ inv _ hs => fifo_step inv hs

end Xv6.Pipe
