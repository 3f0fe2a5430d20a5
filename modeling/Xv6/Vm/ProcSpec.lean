import Xv6.Vm.FreeSpec

/-! What `kernel/proc.c` does to the address spaces of processes. -/

namespace Xv6.Vm
open Lib

structure SlotOk (L : Layout) (s : Sys) (T : Temps) (i : Slot) : Prop where
  unused : (s.proc i).state = .unused → (s.proc i).pagetable = 0 ∧ (s.proc i).trapframe = 0 ∧ (s.proc i).sz = 0
  used : (s.proc i).state ≠ .unused → (s.proc i).pagetable ≠ 0 ∧ (s.proc i).trapframe ≠ 0 ∧
    Space L s T (some i) (pages (s.proc i).sz) (s.proc i).trapframe

structure Apart (s : Sys) (T : Temps) (s' : Sys) (T' : Temps) (j : Slot) : Prop where
  proc : ∀ i, i ≠ j → s'.proc i = s.proc i
  initproc : s'.initproc = s.initproc
  pipes : s'.pipes = s.pipes
  kernel : s'.kernel = s.kernel
  lv : ∀ i v, i ≠ j → lv s' T' (some i) v = lv s T (some i) v

structure Spare (X : Pins) (s : Sys) (T : Temps) (j : Slot) : Prop where
  frame : X (s.proc j).trapframe = none
  user : Unpinned X s T (some j) 0 (pages (s.proc j).sz)

/-- No slot is in use that was not, and those in use are as they were. -/
structure Undone (s : Sys) (T : Temps) (s' : Sys) : Prop where
  proc : ∀ i, (s.proc i).state ≠ .unused → s'.proc i = s.proc i
  unused : ∀ i, (s.proc i).state = .unused → (s'.proc i).state = .unused
  initproc : s'.initproc = s.initproc
  pipes : s'.pipes = s.pipes
  kernel : s'.kernel = s.kernel
  lv : ∀ i v, (s.proc i).state ≠ .unused → lv s' T (some i) v = lv s T (some i) v

section
variable {L : Layout} {X : Pins} {s s' s'' : Sys} {T T' T'' : Temps} {r : Tab} {i j : Slot} {n tf : Nat}

theorem Calm.apart (h : Calm s T s' T') : Apart s T s' T' j :=
  ⟨fun i _ => by rw [h.kept.proc], h.kept.initproc, h.kept.pipes, h.kept.kernel, fun i v _ => h.lv (some i) v⟩

theorem Apart.trans (h : Apart s T s' T' j) (h' : Apart s' T' s'' T'' j) : Apart s T s'' T'' j :=
  ⟨fun i hi => (h'.proc i hi).trans (h.proc i hi), h'.initproc.trans h.initproc, h'.pipes.trans h.pipes,
    h'.kernel.trans h.kernel, fun i v hi => (h'.lv i v hi).trans (h.lv i v hi)⟩

theorem Space.congr (h : Space L s T r n tf) (hlv : ∀ v, lv s' T' r v = lv s T r v) : Space L s' T' r n tf where
  user := ⟨fun v hv => by rw [hlv]; exact h.user.mapped v hv, fun v h1 h2 => by rw [hlv]; exact h.user.rest v h1 h2⟩
  frame := by rw [hlv]; exact h.frame
  tramp := by rw [hlv]; exact h.tramp
  top v hv := by rw [hlv]; exact h.top v hv

theorem SlotOk.congr (h : SlotOk L s T i) (hproc : s'.proc i = s.proc i)
    (hlv : ∀ v, lv s' T' (some i) v = lv s T (some i) v) : SlotOk L s' T' i where
  unused hst := by
    rw [hproc] at hst ⊢
    exact h.unused hst
  used hst := by
    rw [hproc] at hst ⊢
    obtain ⟨hpt, htf, hsp⟩ := h.used hst
    exact ⟨hpt, htf, hsp.congr hlv⟩

theorem SlotOk.apart (h : SlotOk L s T i) (ha : Apart s T s' T' j) (hi : i ≠ j) : SlotOk L s' T' i :=
  h.congr (ha.proc i hi) fun v => ha.lv i v hi

theorem root_slot (h : (s.proc i).pagetable ≠ 0) : root s T (some i) = some (s.proc i).pagetable := by
  simp only [root, ptr, if_neg h]

theorem setProc_apart {p : Proc} (hlv : ∀ i v, i ≠ j → lv (s.setProc j p) T' (some i) v = lv s T (some i) v) :
    Apart s T (s.setProc j p) T' j :=
  ⟨fun _ hi => Function.update_of_ne hi _ _, rfl, rfl, rfl, hlv⟩

@[simp] theorem setProc_self {p : Proc} : (s.setProc i p).proc i = p := Function.update_self ..

theorem Rep.setField (h : Rep L X s T) {p : Proc} (hpt : p.pagetable = (s.proc j).pagetable)
    (htf : p.trapframe = (s.proc j).trapframe) :
    Rep L X (s.setProc j p) T ∧ ∀ r d k, ent (s.setProc j p) T r d k = ent s T r d k := by
  refine h.reproc rfl rfl (fun i => ?_) (fun i => ?_) rfl rfl
  · by_cases hi : i = j
    · rw [hi, setProc_self, hpt]
    · rw [show (s.setProc j p).proc i = s.proc i from Function.update_of_ne hi _ _]
  · by_cases hi : i = j
    · rw [hi, setProc_self, htf]
    · rw [show (s.setProc j p).proc i = s.proc i from Function.update_of_ne hi _ _]

theorem Rep.unpinned_zero (h : Rep L X s T) : X 0 = none := by
  cases hX : X 0 with
  | none => rfl
  | some b =>
    obtain ⟨-, o, -, ho⟩ := h.pins 0 b hX
    exact absurd rfl (h.stock ho).ne_zero

def Proc.freed (p : Proc) : Proc := (p.setTrapframe 0).blank

theorem Rep.endFrame (h : Rep L X s T) (hne : (s.proc j).trapframe ≠ 0) (hX : X (s.proc j).trapframe = none) :
    Rep L X ((s.called.freed (s.proc j).trapframe).setProc j ((s.proc j).setTrapframe 0)) T ∧
      ∀ r v, lv ((s.called.freed (s.proc j).trapframe).setProc j ((s.proc j).setTrapframe 0)) T r v = lv s T r v := by
  have hown : own s T (.frame j) = some (s.proc j).trapframe := by simp only [own, ptr, if_neg hne]
  have hnot : (s.proc j).trapframe ∉ T.pages := fun hc => by cases h.inj hown (Rep.own_temp hc)
  have hdrop := h.called.dropFrame (i := j) (p := (s.proc j).setTrapframe 0) rfl hne rfl rfl
  obtain ⟨hfree, hent⟩ := hdrop.free (Finset.mem_insert_self _ T.pages) hX
  rw [show (T.add (s.called.proc j).trapframe).drop (s.called.proc j).trapframe = T from Temps.drop_add hnot] at hfree hent
  refine ⟨hfree, fun r v => (hent r 2 v (le_refl 2)).trans ?_⟩
  exact ent_setProc (s := s.called) rfl Temps.add_tab

theorem Rep.endSlot [X.Open (some j)] {p : Proc} (h : Rep L X s T) (hne : (s.proc j).pagetable ≠ 0)
    (hb : Barren s.page (s.proc j).pagetable) (hpt : p.pagetable = 0) (htf : p.trapframe = (s.proc j).trapframe) :
    Rep L X ((s.called.freed (s.proc j).pagetable).setProc j p) T ∧
      ∀ r v, lv ((s.called.freed (s.proc j).pagetable).setProc j p) T r v = lv s T r v := by
  have hown : own s T (.node (some j) 0 0) = some (s.proc j).pagetable := by
    rw [own_node (by omega), nd_root, root_slot hne]
  have hnot : (s.proc j).pagetable ∉ T.pages := fun hc => by cases h.inj hown (Rep.own_temp hc)
  obtain ⟨hdrop, hent⟩ := h.called.dropSlot (i := j) (p := p) rfl hne hb hpt htf
  have hX : X (s.proc j).pagetable = none := h.unpinned_nd (r := some j) (d := 0) (k := 0) (by omega) (nd_root.trans (root_slot hne))
  obtain ⟨hfree, hent'⟩ := hdrop.free (Finset.mem_insert_self _ T.pages) hX
  rw [show (T.add (s.called.proc j).pagetable).drop (s.called.proc j).pagetable = T from Temps.drop_add hnot]
    at hfree hent'
  exact ⟨hfree, fun r v => (hent' r 2 v (le_refl 2)).trans (hent r 2 v)⟩

theorem wp_freeTable [X.Open (some j)] {Q : Unit → Sys → Prop} {p : Proc} (h : Rep L X s T) (hpt : (s.proc j).pagetable = p.pagetable)
    (hsp : p.pagetable ≠ 0 → ∃ tf, Space L s T (some j) (pages p.sz) tf) (hX : Unpinned X s T (some j) 0 (pages p.sz))
    (hQ : ∀ s', Rep L X s' T → Apart s T s' T j → s'.proc j = (s.proc j).blank → (∀ v, lv s' T none v = lv s T none v) →
      Q () s') :
    wp (do
      if p.pagetable ≠ 0 then procFreepagetable L p.pagetable p.sz
      onProc j Proc.blank) Q (Looked L) s := by
  by_cases h0 : p.pagetable = 0
  · simp only [h0, ne_eq, not_true_eq_false, if_false, wp_onProc]
    obtain ⟨hrep, hent⟩ := h.setField (j := j) (p := (s.proc j).blank) (by rw [hpt, h0]; rfl) rfl
    exact hQ _ hrep (setProc_apart fun i v _ => hent (some i) 2 v) setProc_self fun v => hent none 2 v
  · obtain ⟨tf, hsp⟩ := hsp h0
    simp only [ne_eq, h0, not_false_eq_true, if_true, wp_bind, wp_onProc]
    rw [← hpt] at h0 ⊢
    refine wp_procFreepagetable (r := some j) h (root_slot h0) hsp hX fun s1 hs1 hem => ?_
    have hproc : s1.proc = s.proc := hem.kept.proc
    obtain ⟨hend, hlv⟩ := hs1.endSlot (j := j) (p := (s.proc j).blank) (by rw [hproc]; exact h0)
      (by rw [hproc]; exact hem.barren) rfl (by rw [hproc]; rfl)
    rw [show (s1.called.freed (s.proc j).pagetable).proc j = s.proc j from congrFun hproc j]
    rw [hproc] at hend hlv
    refine hQ _ hend ⟨fun i hi => ?_, hem.kept.initproc, hem.kept.pipes, hem.kept.kernel, fun i v hi => ?_⟩
      setProc_self fun v => ?_
    · rw [← hproc]
      exact Function.update_of_ne hi _ _
    · rw [hlv, hem.other _ v fun he => hi (Option.some.inj he)]
    · rw [hlv, hem.other none v (by rintro ⟨⟩)]

theorem wp_freeproc [X.Open (some j)] {Q : Unit → Sys → Prop} (h : Rep L X s T)
    (hsp : (s.proc j).pagetable ≠ 0 → ∃ tf, Space L s T (some j) (pages (s.proc j).sz) tf) (hX : Spare X s T j)
    (hQ : ∀ s', Rep L X s' T → Apart s T s' T j → s'.proc j = (s.proc j).freed → (∀ v, lv s' T none v = lv s T none v) →
      Q () s') : wp (freeproc L j) Q (Looked L) s := by
  unfold freeproc
  simp only [wp_bind, wp_view]
  by_cases h0 : (s.proc j).trapframe = 0
  · simp only [h0, ne_eq, not_true_eq_false, if_false, wp_bind, wp_onProc]
    have hset : (s.proc j).setTrapframe 0 = s.proc j := by rw [← h0]; rfl
    obtain ⟨hrep, hent⟩ := h.setField (j := j) (p := (s.proc j).setTrapframe 0) rfl (by rw [h0]; rfl)
    refine wp_freeTable hrep (by rw [setProc_self]; rfl) (fun hne => ?_) (fun v h1 h2 => ?_) fun s' hs' ha hproc hlv => ?_
    · obtain ⟨tf, hsp⟩ := hsp hne
      exact ⟨tf, hsp.congr fun v => hent (some j) 2 v⟩
    · rw [lv, hent (some j) 2 v]
      exact hX.user v h1 h2
    · refine hQ s' hs' ((setProc_apart fun i v _ => hent (some i) 2 v).trans ha) ?_ fun v => (hlv v).trans (hent none 2 v)
      rw [hproc, setProc_self]
      rfl
  · simp only [ne_eq, h0, not_false_eq_true, if_true, wp_bind, wp_onProc]
    have hown : own s T (.frame j) = some (s.proc j).trapframe := by simp only [own, ptr, if_neg h0]
    refine wp_kfree ⟨_, T, h, fun pa he => ⟨_, Option.some.inj he ▸ hown⟩⟩ (h.stock hown) ?_
    obtain ⟨hrep, hlv⟩ := h.endFrame h0 hX.frame
    have ha1 : Apart s T ((s.called.freed (s.proc j).trapframe).setProc j ((s.proc j).setTrapframe 0)) T j :=
      ⟨fun i hi => Function.update_of_ne hi _ _, rfl, rfl, rfl, fun i v _ => hlv (some i) v⟩
    refine wp_freeTable hrep (by rw [setProc_self]; rfl) (fun hne => ?_) (fun v h1 h2 => ?_) fun s' hs' ha hproc hlv' => ?_
    · obtain ⟨tf, hsp⟩ := hsp hne
      exact ⟨tf, hsp.congr fun v => hlv (some j) v⟩
    · refine (congrArg (fun e => X (pte2pa e)) (hlv (some j) v)).trans ?_
      exact hX.user v h1 h2
    · refine hQ s' hs' (ha1.trans ha) ?_ fun v => (hlv' v).trans (hlv none v)
      rw [hproc, setProc_self]
      rfl

theorem SlotOk.of_freed {p : Proc} (h : s.proc j = p.freed) : SlotOk L s T j :=
  ⟨fun _ => by rw [h]; exact ⟨rfl, rfl, rfl⟩, fun hne => absurd (by rw [h]; rfl) hne⟩

theorem wp_giveBack [X.Open (some j)] {Q : Unit → Sys → Prop} (h : Rep L X s' T') (hok : ∀ i, i ≠ j → SlotOk L s T i)
    (ha : Apart s T s' T' j) (hsp : (s'.proc j).pagetable ≠ 0 → ∃ tf, Space L s' T' (some j) (pages (s'.proc j).sz) tf)
    (hX : Spare X s' T' j)
    (hQ : ∀ s'', Rep L X s'' T' → (∀ i, SlotOk L s'' T' i) → Apart s T s'' T' j → (s''.proc j).state = .unused → Q () s'') :
    wp (freeproc L j) Q (Looked L) s' := by
  refine wp_freeproc h hsp hX fun s'' hs'' ha' hproc _ => hQ s'' hs'' (fun i => ?_) (ha.trans ha') (by rw [hproc]; rfl)
  by_cases hi : i = j
  · exact hi ▸ SlotOk.of_freed hproc
  · exact (hok i hi).apart (ha.trans ha') hi

theorem Apart.undone (h : Apart s T s' T j) (hj : (s.proc j).state = .unused) (hj' : (s'.proc j).state = .unused) : Undone s T s' := by
  have hne : ∀ i, (s.proc i).state ≠ .unused → i ≠ j := fun i hi he => hi (he ▸ hj)
  refine ⟨fun i hi => h.proc i (hne i hi), fun i hi => ?_, h.initproc, h.pipes, h.kernel, fun i v hi => h.lv i v (hne i hi)⟩
  by_cases hij : i = j
  · exact hij ▸ hj'
  · rw [h.proc i hij, hi]

theorem claim_apart : Apart s T (s.claim j) T j :=
  ⟨fun _ hi => Function.update_of_ne hi _ _, rfl, rfl, rfl, fun i v hi => by
    refine ent_congr ?_ (fun _ _ _ _ _ => rfl) (le_refl 2)
    rw [root, root, show (s.claim j).proc i = s.proc i from Function.update_of_ne hi _ _]⟩

theorem claim_self : (s.claim j).proc j = { s.proc j with pid := s.nextpid, state := .used } := Function.update_self ..

theorem Rep.claim (h : Rep L X s T) : Rep L X (s.claim j) T ∧ ∀ r d k, ent (s.claim j) T r d k = ent s T r d k := by
  refine h.reproc rfl rfl (fun i => ?_) (fun i => ?_) rfl rfl
  · by_cases hi : i = j
    · rw [hi, claim_self]
    · rw [claim_apart (T := T).proc i hi]
  · by_cases hi : i = j
    · rw [hi, claim_self]
    · rw [claim_apart (T := T).proc i hi]

/-- A new process: in use, with a trapframe and a page table without user memory. -/
structure Fresh (L : Layout) (s : Sys) (T : Temps) (j : Slot) : Prop where
  state : (s.proc j).state = .used
  pagetable : (s.proc j).pagetable ≠ 0
  trapframe : (s.proc j).trapframe ≠ 0
  sz : (s.proc j).sz = 0
  space : Space L s T (some j) 0 (s.proc j).trapframe

theorem wp_allocTable [X.Open none] [X.Open (some j)] {Q : Option Slot → Sys → Prop} (h : Rep L X s' T) (htab : T.tab = none)
    (hok : ∀ i, i ≠ j → SlotOk L s T i) (ha : Apart s T s' T j) (hstock : Stock L tf)
    (htf : (s'.proc j).trapframe = tf) (hpt : (s'.proc j).pagetable = 0) (hsz : (s'.proc j).sz = 0)
    (hst : (s'.proc j).state = .used) (hX : X tf = none)
    (hnone : ∀ s'', Rep L X s'' T → (∀ i, SlotOk L s'' T i) → Apart s T s'' T j → (s''.proc j).state = .unused → Q none s'')
    (hsome : ∀ s'', Rep L X s'' T → Apart s T s'' T j → Fresh L s'' T j → (s''.proc j).trapframe = tf →
      (s''.proc j).pid = (s'.proc j).pid → Q (some j) s'') :
    wp (do
      let pagetable ← procPagetable L tf
      onProc j (·.setPagetable pagetable)
      if pagetable = 0 then
        freeproc L j
        pure none
      else pure (some j)) Q (Looked L) s' := by
  rw [wp_bind]
  refine wp_procPagetable h htab hstock.1 hstock.lt (fun s1 hs1 hc => ?_) fun p s1 hp hs1 hk hlv hsp => ?_
  · have hproc : s1.proc j = s'.proc j := congrFun hc.kept.proc j
    obtain ⟨hs2, hent⟩ := hs1.setField (j := j) (p := (s1.proc j).setPagetable 0) (by rw [hproc, hpt]; rfl) rfl
    simp only [wp_onProc, if_true, wp_bind]
    refine wp_giveBack hs2 hok (ha.trans (hc.apart.trans (setProc_apart fun i v _ => hent (some i) 2 v)))
      (fun hne => absurd ?_ hne) ⟨?_, fun v _ h2 => absurd h2 ?_⟩ hnone
    · rw [setProc_self]
      rfl
    · rw [setProc_self, hproc]
      exact htf.symm ▸ hX
    · rw [setProc_self, hproc, show ((s'.proc j).setPagetable 0).sz = (s'.proc j).sz from rfl, hsz]
      exact Nat.not_lt_zero v
  · have hproc : s1.proc j = s'.proc j := congrFun hk.proc j
    have hptr : (⟨some p, T.pages⟩ : Temps).tab = ptr ((s1.proc j).setPagetable p).pagetable := (if_neg hp).symm
    have hptr' : T.tab = ptr (s1.proc j).pagetable := by rw [htab, hproc, hpt]; rfl
    have hs2 := hs1.swapTab hptr hptr' rfl rfl
    simp only [wp_onProc, if_neg hp, wp_bind, wp_pure]
    have hent : ∀ r v, lv (s1.setProc j ((s1.proc j).setPagetable p)) T r v =
        lv s1 ⟨some p, T.pages⟩ (Equiv.swap none (some j) r) v := fun r v => ent_swap hptr hptr'
    refine hsome _ hs2 (ha.trans ⟨fun i hi => ?_, hk.initproc, hk.pipes, hk.kernel, fun i v hi => ?_⟩) ?_
      (by rw [setProc_self, ← htf, ← hproc]; rfl) (by rw [setProc_self, ← hproc]; rfl)
    · rw [← hk.proc]
      exact Function.update_of_ne hi _ _
    · rw [hent, Equiv.swap_apply_of_ne_of_ne (Option.some_ne_none i) fun he => hi (Option.some.inj he), hlv]
    · have hframe : ((s1.proc j).setPagetable p).trapframe = tf := by rw [← htf, ← hproc]; rfl
      refine ⟨?_, ?_, ?_, ?_, ?_⟩ <;> rw [setProc_self]
      · rw [← hst, ← hproc]
        rfl
      · exact hp
      · rw [hframe]
        exact hstock.ne_zero
      · rw [← hsz, ← hproc]
        rfl
      · rw [hframe]
        refine ⟨⟨fun v hv => absurd hv (by omega), fun v h1 h2 => ?_⟩, ?_, ?_, fun v hv => ?_⟩ <;>
          rw [hent, Equiv.swap_apply_right]
        · exact hsp.user.rest v h1 h2
        · exact hsp.frame
        · exact hsp.tramp
        · exact hsp.top v hv

theorem wp_allocproc [X.Open none] {Q : Option Slot → Sys → Prop} (hopen : ∀ j, (s.proc j).state = .unused → X.Open (some j))
    (h : Rep L X s T) (htab : T.tab = none) (hok : ∀ i, SlotOk L s T i)
    (hnone : ∀ s', Rep L X s' T → (∀ i, SlotOk L s' T i) → Undone s T s' → Q none s')
    (hsome : ∀ j s', (s.proc j).state = .unused → Rep L X s' T → Apart s T s' T j → Fresh L s' T j →
      X (s'.proc j).trapframe = none → (s'.proc j).pid = s.nextpid → Q (some j) s') :
    wp (allocproc L) Q (Looked L) s := by
  unfold allocproc
  rw [wp_bind, wp_view]
  cases hfirst : firstUnused s with
  | none => exact hnone s h hok ⟨fun _ _ => rfl, fun _ hi => hi, rfl, rfl, rfl, fun _ _ _ => rfl⟩
  | some j =>
    have hst : (s.proc j).state = .unused := by simpa using List.find?_some hfirst
    have := hopen j hst
    obtain ⟨hpt0, htf0, hsz0⟩ := (hok j).unused hst
    obtain ⟨hs1, hent1⟩ := h.claim (j := j)
    have ha1 : Apart s T (s.claim j) T j := claim_apart
    have hp1 : (s.claim j).proc j = { s.proc j with pid := s.nextpid, state := .used } := claim_self
    simp only [wp_bind, wp_change]
    generalize s.claim j = s1 at hs1 ha1 hp1 ⊢
    refine wp_kalloc hs1 (fun s2 hs2 hst2 => ?_) fun tf s2 hstock hnot hX hs2 hst2 => ?_
    · have hp2 : s2.proc j = s1.proc j := congrFun hst2.kept.proc j
      obtain ⟨hs3, hent3⟩ := hs2.setField (j := j) (p := (s2.proc j).setTrapframe 0) rfl (by rw [hp2, hp1, htf0]; rfl)
      simp only [wp_onProc, if_true, wp_bind]
      refine wp_giveBack hs3 (fun i _ => hok i) (ha1.trans (hst2.calm.apart.trans
        (setProc_apart fun i v _ => hent3 (some i) 2 v))) (fun hne => absurd ?_ hne) ⟨?_, fun v _ h2 => absurd h2 ?_⟩
        fun s'' hs'' hok'' ha'' hun => hnone s'' hs'' hok'' (ha''.undone hst hun)
      · rw [setProc_self, hp2, hp1]
        exact hpt0
      · rw [setProc_self]
        exact hs3.unpinned_zero
      · rw [setProc_self, hp2, hp1]
        show ¬v < pages (s.proc j).sz
        rw [hsz0]
        exact Nat.not_lt_zero v
    · have hp2 : s2.proc j = s1.proc j := congrFun hst2.kept.proc j
      have hs3 := hs2.setFrame (i := j) (p := (s2.proc j).setTrapframe tf) (by rw [hp2, hp1, htf0])
        (Finset.mem_insert_self ..) rfl rfl
      rw [Temps.drop_add hnot] at hs3
      have ha3 : Apart s2 (T.add tf) (s2.setProc j ((s2.proc j).setTrapframe tf)) T j :=
        setProc_apart fun i v _ => ent_setProc rfl rfl
      simp only [wp_onProc, if_neg hstock.ne_zero, wp_bind]
      have hp3 : (s2.setProc j ((s2.proc j).setTrapframe tf)).proc j = (s1.proc j).setTrapframe tf := by
        rw [setProc_self, hp2]
      replace ha3 := ha1.trans (hst2.calm.apart.trans ha3)
      generalize s2.setProc j ((s2.proc j).setTrapframe tf) = s3 at hs3 ha3 hp3 ⊢
      rw [hp1] at hp3
      simpa only [wp_bind, wp_onProc] using wp_allocTable hs3 htab (fun i _ => hok i) ha3 hstock (by rw [hp3]; rfl)
        (by rw [hp3]; exact hpt0) (by rw [hp3]; exact hsz0) (by rw [hp3]; rfl) hX
        (fun s'' hs'' hok'' ha'' hun => hnone s'' hs'' hok'' (ha''.undone hst hun))
        fun s' hs' ha' hf' htf' hpid' => hsome j s' hst hs' ha' hf' (by rw [htf']; exact hX) (by rw [hpid', hp3]; rfl)

end

end Xv6.Vm
