import Xv6.Lib.Sum
import Xv6.Log.Group

/-! No commit runs while an operation is open, so the blocks of one operation all go into one commit. -/

namespace Xv6.Group
open Lib

def Pc.ops : Pc → Int
  | .inOp _ => 1
  | _ => 0

theorem Pc.ops_nonneg (pc : Pc) : 0 ≤ pc.ops := by
  cases pc <;> simp [Pc.ops]

def Phase.written (bs : List Nat) : Phase → List Nat
  | .install tail => bs.take tail
  | .clear => bs
  | _ => []

/-- An operation that has ended is wholly in one commit, or wholly in the current group. -/
def Op.Together (h : History) (o : Op) : Prop :=
  (∃ c, h.commits[o.commits]? = some c ∧ o.logged ⊆ c.written) ∨
    (o.commits = h.commits.length ∧ o.logged ⊆ h.group)

section
variable {P : Type} [Fintype P]

structure Inv (s : Sys P) : Prop where
  outstanding : s.log.outstanding = ∑ p, (s.pc p).ops
  /-- Operations and commits exclude each other. -/
  open_quiet : ∀ p l, s.pc p = .inOp l → s.log.committing = false
  commit_busy : ∀ p ph, s.pc p = .commit ph → s.log.committing = true
  commit_unique : ∀ p q ph ph', s.pc p = .commit ph → s.pc q = .commit ph' → p = q
  /-- The header lists the current group, each block once. -/
  nodup : s.log.lh.blocks.Nodup
  group : ∀ b, b ∈ s.log.lh.blocks ↔ b ∈ s.hist.group
  mine : ∀ p l, s.pc p = .inOp l → l ⊆ s.hist.group
  written : ∀ p ph, s.pc p = .commit ph → s.hist.written = ph.written s.log.lh.blocks
  unwritten : s.log.committing = false → s.hist.written = []
  commits : ∀ c ∈ s.hist.commits, c.written.Nodup ∧ ∀ b, b ∈ c.written ↔ b ∈ c.logged
  ended : ∀ o ∈ s.hist.ended, o.Together s.hist

theorem inv_init {size : Nat} {s : Sys P} (h : Init size s) : Inv s := by
  obtain ⟨-, hout, hcom, hn, hpc, hh⟩ := h
  have hb : s.log.lh.blocks = [] := by simp [LogHeader.blocks, hn]
  constructor <;> simp [hout, hcom, hpc, hh, hb, Pc.ops]

theorem sum_wakeup (pc : P → Pc) : ∑ p, (wakeup pc p).ops = ∑ p, (pc p).ops := by
  apply Finset.sum_congr rfl
  intro p _
  unfold wakeup
  split
  · rename_i h; simp [h, Pc.ops]
  · rfl

theorem Inv.outstanding_pos {s : Sys P} (inv : Inv s) {p : P} {l : List Nat} (hp : s.pc p = .inOp l) :
    1 ≤ s.log.outstanding := by
  have h := le_sum_of_nonneg (fun q => (s.pc q).ops_nonneg) p
  rw [← inv.outstanding, hp] at h
  exact h

theorem Inv.last_open {s : Sys P} [DecidableEq P] (inv : Inv s) {p : P} {l : List Nat} (hp : s.pc p = .inOp l)
    (h1 : s.log.outstanding = 1) {q : P} {l' : List Nat} (hq : s.pc q = .inOp l') : q = p := by
  by_contra hne
  have h := le_sum_of_nonneg (fun r => (Function.update s.pc p .idle r).ops_nonneg) q
  rw [sum_update Pc.ops, ← inv.outstanding, h1, hp, Function.update_of_ne hne, hq] at h
  simp [Pc.ops] at h

variable [DecidableEq P] {s t : Sys P} {p : P}

theorem Inv.move (inv : Inv s) {v : Pc} (hops : (s.pc p).ops = v.ops) (hop : ∀ l, v ≠ .inOp l)
    (hcom : ∀ ph, v ≠ .commit ph) : Inv { s with pc := Function.update s.pc p v } where
  outstanding := by
    show s.log.outstanding = _
    rw [sum_update Pc.ops, hops, inv.outstanding]
    omega
  open_quiet q l hq := inv.open_quiet q l (update_back (hop l) hq)
  commit_busy q ph hq := inv.commit_busy q ph (update_back (hcom ph) hq)
  commit_unique q r ph ph' hq hr :=
    inv.commit_unique q r ph ph' (update_back (hcom ph) hq) (update_back (hcom ph') hr)
  nodup := inv.nodup
  group := inv.group
  mine q l hq := inv.mine q l (update_back (hop l) hq)
  written q ph hq := inv.written q ph (update_back (hcom ph) hq)
  unwritten := inv.unwritten
  commits := inv.commits
  ended := inv.ended

theorem inv_beginOp (inv : Inv s) (h : step s (.beginOp p) = .ok t) : Inv t := by
  obtain ⟨hp, rfl⟩ := step_beginOp h
  have hops : (s.pc p).ops = 0 := by rcases hp with hp | hp <;> rw [hp] <;> rfl
  have sleeps : Inv { s with pc := Function.update s.pc p .asleep } := inv.move hops (by simp) (by simp)
  unfold beginOp
  split
  · exact sleeps
  · rename_i hcom
    split
    · exact sleeps
    · exact {
        outstanding := by
          show s.log.outstanding + 1 = _
          rw [sum_update Pc.ops, hops, inv.outstanding]
          simp [Pc.ops]
        open_quiet := fun _ _ _ => by simpa using hcom
        commit_busy := fun q ph hq => inv.commit_busy q ph (update_back (by simp) hq)
        commit_unique := fun q r ph ph' hq hr =>
          inv.commit_unique q r ph ph' (update_back (by simp) hq) (update_back (by simp) hr)
        nodup := inv.nodup
        group := inv.group
        mine := fun q l hq => by
          rcases update_cases hq with ⟨-, hl⟩ | ⟨-, hq⟩
          · cases hl; simp
          · exact inv.mine q l hq
        written := fun q ph hq => inv.written q ph (update_back (by simp) hq)
        unwritten := inv.unwritten
        commits := inv.commits
        ended := inv.ended }

theorem Op.Together.mono {h h' : History} {o : Op} (ho : o.Together h) (hc : h'.commits = h.commits)
    (hg : h.group ⊆ h'.group) : o.Together h' := by
  rcases ho with ⟨c, hc', hl⟩ | ⟨hn, hl⟩
  · exact Or.inl ⟨c, by rw [hc]; exact hc', hl⟩
  · exact Or.inr ⟨by rw [hc]; exact hn, fun b hb => hg (hl hb)⟩

theorem inv_logWrite {b : Nat} (inv : Inv s) (h : step s (.logWrite p b) = .ok t) : Inv t := by
  obtain ⟨l, hp, -, -, rfl⟩ := step_logWrite h
  have hquiet := inv.open_quiet p l hp
  -- No commit runs, so what the running commit has written is not at stake.
  have none : ∀ {q : P} {ph : Phase}, Function.update s.pc p (.inOp (l ++ [b])) q ≠ .commit ph := by
    intro q ph hq
    have := inv.commit_busy q ph (update_back (by simp) hq)
    rw [hquiet] at this
    cases this
  have hsub : s.hist.group ⊆ s.hist.group ++ [b] := List.subset_append_left _ _
  exact {
    outstanding := by
      show s.log.outstanding = _
      rw [sum_update Pc.ops, hp, inv.outstanding]
      simp [Pc.ops]
    open_quiet := fun _ _ _ => hquiet
    commit_busy := fun q ph hq => absurd hq none
    commit_unique := fun q r ph ph' hq _ => absurd hq none
    nodup := LogHeader.nodup_blocks_log b inv.nodup
    group := fun x => by
      show x ∈ (s.log.lh.log b).blocks ↔ x ∈ s.hist.group ++ [b]
      rw [LogHeader.mem_blocks_log, inv.group, List.mem_append, List.mem_singleton]
    mine := fun q l' hq => by
      rcases update_cases hq with ⟨-, hl⟩ | ⟨-, hq⟩
      · cases hl
        exact List.append_subset.mpr ⟨fun x hx => hsub (inv.mine p l hp hx), List.subset_append_right _ _⟩
      · exact fun x hx => hsub (inv.mine q l' hq hx)
    written := fun q ph hq => absurd hq none
    unwritten := inv.unwritten
    commits := inv.commits
    ended := fun o ho => (inv.ended o ho).mono rfl hsub }

theorem inv_endOp (inv : Inv s) (h : step s (.endOp p) = .ok t) : Inv t := by
  obtain ⟨l, hp, hquiet, hhist, hcase⟩ := step_endOp h
  have hmine := inv.mine p l hp
  have hended : ∀ o ∈ t.hist.ended, o.Together t.hist := by
    intro o ho
    rw [hhist] at ho ⊢
    rcases List.mem_append.mp ho with ho | ho
    · exact (inv.ended o ho).mono rfl (fun _ => id)
    · rw [List.mem_singleton] at ho
      subst ho
      exact Or.inr ⟨rfl, hmine⟩
  have none : ∀ {q : P} {ph : Phase}, s.pc q ≠ .commit ph := by
    intro q ph hq
    have := inv.commit_busy q ph hq
    rw [hquiet] at this
    cases this
  rcases hcase with ⟨hone, hpc, hlog⟩ | ⟨-, hpc, hlog⟩
  · -- The last operation ends and its process starts the commit.
    have only : ∀ q ph, t.pc q = .commit ph → q = p ∧ ph = .enter := by
      intro q ph hq
      rw [hpc] at hq
      rcases update_cases hq with ⟨hqp, hph⟩ | ⟨-, hq⟩
      · exact ⟨hqp, by simpa using hph.symm⟩
      · exact absurd hq none
    have noOp : ∀ q l', t.pc q ≠ .inOp l' := by
      intro q l' hq
      rw [hpc] at hq
      rcases update_cases hq with ⟨-, hl⟩ | ⟨hqp, hq⟩
      · cases hl
      · exact hqp (inv.last_open hp hone hq)
    exact {
      outstanding := by
        rw [hlog, hpc, sum_update Pc.ops, hp, ← inv.outstanding, hone]
        simp [Pc.ops]
      open_quiet := fun q l' hq => absurd hq (noOp q l')
      commit_busy := fun _ _ _ => by rw [hlog]
      commit_unique := fun q r ph ph' hq hr => (only q ph hq).1.trans (only r ph' hr).1.symm
      nodup := by rw [hlog]; exact inv.nodup
      group := by rw [hlog, hhist]; exact inv.group
      mine := fun q l' hq => absurd hq (noOp q l')
      written := fun q ph hq => by
        obtain ⟨-, rfl⟩ := only q ph hq
        rw [hhist]
        exact inv.unwritten hquiet
      unwritten := fun hc => by rw [hlog] at hc; cases hc
      commits := by rw [hhist]; exact inv.commits
      ended := hended }
  · have back : ∀ {q : P} {l' : List Nat}, t.pc q = .inOp l' → s.pc q = .inOp l' := fun hq => by
      rw [hpc, wakeup_inOp] at hq
      exact update_back (by simp) hq
    have none' : ∀ {q : P} {ph : Phase}, t.pc q ≠ .commit ph := fun hq => by
      rw [hpc, wakeup_commit] at hq
      exact none (update_back (by simp) hq)
    exact {
      outstanding := by
        rw [hlog, hpc, sum_wakeup, sum_update Pc.ops, hp, inv.outstanding]
        simp [Pc.ops]
      open_quiet := fun _ _ _ => by rw [hlog]; exact hquiet
      commit_busy := fun q ph hq => absurd hq none'
      commit_unique := fun q r ph ph' hq _ => absurd hq none'
      nodup := by rw [hlog]; exact inv.nodup
      group := by rw [hlog, hhist]; exact inv.group
      mine := fun q l' hq => by rw [hhist]; exact inv.mine q l' (back hq)
      written := fun q ph hq => absurd hq none'
      unwritten := fun _ => by rw [hhist]; exact inv.unwritten hquiet
      commits := by rw [hhist]; exact inv.commits
      ended := hended }

theorem Inv.advance (inv : Inv s) {ph ph' : Phase} (hp : s.pc p = .commit ph) {w : List Nat}
    (hw : w = ph'.written s.log.lh.blocks) :
    Inv { s with pc := Function.update s.pc p (.commit ph'), hist := { s.hist with written := w } } where
  outstanding := by
    show s.log.outstanding = _
    rw [sum_update Pc.ops, hp, inv.outstanding]
    simp [Pc.ops]
  open_quiet q l hq := inv.open_quiet q l (update_back (by simp) hq)
  commit_busy _ _ _ := inv.commit_busy p ph hp
  commit_unique q r ph₁ ph₂ hq hr := by
    have only : ∀ q ph₁, Function.update s.pc p (.commit ph') q = .commit ph₁ → q = p := by
      intro q ph₁ hq
      rcases update_cases hq with ⟨hqp, -⟩ | ⟨-, hq⟩
      · exact hqp
      · exact inv.commit_unique q p _ _ hq hp
    exact (only q ph₁ hq).trans (only r ph₂ hr).symm
  nodup := inv.nodup
  group := inv.group
  mine q l hq := inv.mine q l (update_back (by simp) hq)
  written q ph₁ hq := by
    rcases update_cases hq with ⟨-, h⟩ | ⟨hqp, hq⟩
    · cases h; exact hw
    · exact absurd (inv.commit_unique q p _ _ hq hp) hqp
  unwritten hc := by
    have := inv.commit_busy p ph hp
    rw [show s.log.committing = false from hc] at this
    cases this
  commits := inv.commits
  ended o ho := (inv.ended o ho).mono rfl (fun _ => id)

theorem Inv.advance_same (inv : Inv s) {ph ph' : Phase} (hp : s.pc p = .commit ph)
    (hw : ph.written s.log.lh.blocks = ph'.written s.log.lh.blocks) :
    Inv { s with pc := Function.update s.pc p (.commit ph') } :=
  inv.advance hp (w := s.hist.written) ((inv.written p ph hp).trans hw)

theorem inv_clear (inv : Inv s) (hp : s.pc p = .commit .clear) : Inv (commitStep s p .clear) := by
  have hw : s.hist.written = s.log.lh.blocks := inv.written p _ hp
  have hbusy := inv.commit_busy p _ hp
  have noOp : ∀ q l, Function.update s.pc p (.commit .eraseHead) q ≠ .inOp l := by
    intro q l hq
    have := inv.open_quiet q l (update_back (by simp) hq)
    rw [hbusy] at this
    cases this
  have only : ∀ q ph, Function.update s.pc p (.commit .eraseHead) q = .commit ph → q = p ∧ ph = .eraseHead := by
    intro q ph hq
    rcases update_cases hq with ⟨hqp, h⟩ | ⟨hqp, hq⟩
    · exact ⟨hqp, by simpa using h.symm⟩
    · exact absurd (inv.commit_unique q p _ _ hq hp) hqp
  exact {
    outstanding := by
      show s.log.outstanding = _
      rw [show (commitStep s p .clear).pc = Function.update s.pc p (.commit .eraseHead) from rfl,
        sum_update Pc.ops, hp, inv.outstanding]
      simp [Pc.ops]
    open_quiet := fun q l hq => absurd hq (noOp q l)
    commit_busy := fun _ _ _ => hbusy
    commit_unique := fun q r ph ph' hq hr => (only q ph hq).1.trans (only r ph' hr).1.symm
    nodup := List.nodup_nil
    group := fun b => Iff.rfl
    mine := fun q l hq => absurd hq (noOp q l)
    written := fun q ph hq => by
      obtain ⟨-, rfl⟩ := only q ph hq
      rfl
    unwritten := fun _ => rfl
    commits := fun c hc => by
      rcases List.mem_append.mp hc with hc | hc
      · exact inv.commits c hc
      · rw [List.mem_singleton] at hc
        subst hc
        simp only [hw]
        exact ⟨inv.nodup, inv.group⟩
    ended := fun o ho => by
      rcases inv.ended o ho with ⟨c, hc, hl⟩ | ⟨hn, hl⟩
      · refine Or.inl ⟨c, ?_, hl⟩
        have hlt : o.commits < s.hist.commits.length := (List.getElem?_eq_some_iff.mp hc).1
        exact (List.getElem?_append_left hlt).trans hc
      · refine Or.inl ⟨⟨s.hist.group, s.hist.written⟩, ?_, fun b hb => ?_⟩
        · simp [commitStep, hn]
        · rw [hw]
          exact (inv.group b).mpr (hl hb) }

theorem inv_finish (inv : Inv s) (hp : s.pc p = .commit .finish) : Inv (commitStep s p .finish) := by
  have hbusy := inv.commit_busy p _ hp
  have none : ∀ {q : P} {ph : Phase}, wakeup (Function.update s.pc p .idle) q ≠ .commit ph := by
    intro q ph hq
    rw [wakeup_commit] at hq
    rcases update_cases hq with ⟨-, h⟩ | ⟨hqp, hq⟩
    · cases h
    · exact hqp (inv.commit_unique q p _ _ hq hp)
  have noOp : ∀ q l, wakeup (Function.update s.pc p .idle) q ≠ .inOp l := by
    intro q l hq
    rw [wakeup_inOp] at hq
    have := inv.open_quiet q l (update_back (by simp) hq)
    rw [hbusy] at this
    cases this
  exact {
    outstanding := by
      show s.log.outstanding = ∑ q, (wakeup (Function.update s.pc p .idle) q).ops
      rw [sum_wakeup, sum_update Pc.ops, hp, inv.outstanding]
      simp [Pc.ops]
    open_quiet := fun _ _ _ => rfl
    commit_busy := fun q ph hq => absurd hq none
    commit_unique := fun q r ph ph' hq _ => absurd hq none
    nodup := inv.nodup
    group := inv.group
    mine := fun q l hq => absurd hq (noOp q l)
    written := fun q ph hq => absurd hq none
    unwritten := fun _ => inv.written p _ hp
    commits := inv.commits
    ended := inv.ended }

theorem inv_commitStep (inv : Inv s) (h : step s (.commitStep p) = .ok t) : Inv t := by
  obtain ⟨ph, hp, rfl⟩ := step_commitStep h
  cases ph with
  | enter =>
    apply inv.advance_same hp
    split <;> rfl
  | writeLog tail =>
    apply inv.advance_same hp
    split <;> rfl
  | writeHead => exact inv.advance_same hp (by simp [Phase.written])
  | install tail =>
    have hw : s.hist.written = s.log.lh.blocks.take tail := inv.written p _ hp
    simp only [commitStep]
    split
    · rename_i hlt
      apply inv.advance hp
      have hlt' : tail < s.log.lh.blocks.length := by simpa using hlt
      rw [hw, Phase.written, List.take_add_one, List.getElem?_eq_getElem hlt']
      simp [LogHeader.blocks]
    · rename_i hge
      apply inv.advance_same hp
      exact List.take_of_length_le (by simpa using Nat.le_of_not_lt hge)
  | clear => exact inv_clear inv hp
  | eraseHead => exact inv.advance_same hp rfl
  | finish => exact inv_finish inv hp

theorem inv_step {a : Action P} (inv : Inv s) (h : step s a = .ok t) : Inv t := by
  cases a with
  | beginOp p => exact inv_beginOp inv h
  | logWrite p b => exact inv_logWrite inv h
  | endOp p => exact inv_endOp inv h
  | commitStep p => exact inv_commitStep inv h

theorem inv_reach {size : Nat} {ok : Sys P → Action P → Prop} (h : Reach (Init size) step ok s) : Inv s :=
  h.invariant (fun _ => inv_init) fun _ _ _ inv _ hs => inv_step inv hs

/-- No commit runs while an operation is open; an operation that has ended is wholly in one commit, or in the group of
    the next one; a commit writes what was logged since the one before it; and the panics of `end_op` and `log_write`
    about the position of the caller are out of reach. -/
theorem group_commit_isolated {size : Nat} (h : Reach (Init size) step (fun _ _ => True) s) :
    (∀ p l, s.pc p = .inOp l → s.log.committing = false ∧ ∀ q ph, s.pc q ≠ .commit ph) ∧
    (∀ o ∈ s.hist.ended, o.Together s.hist) ∧
    (∀ p l, s.pc p = .inOp l → l ⊆ s.hist.group) ∧
    (∀ c ∈ s.hist.commits, c.written.Nodup ∧ ∀ b, b ∈ c.written ↔ b ∈ c.logged) ∧
    s.log.lh.blocks.Nodup ∧ (∀ b, b ∈ s.log.lh.blocks ↔ b ∈ s.hist.group) ∧
    (∀ a, step s a ≠ .error (.panic .logCommitting) ∧ step s a ≠ .error (.panic .outsideTrans)) := by
  have inv := inv_reach h
  refine ⟨fun p l hp => ⟨inv.open_quiet p l hp, fun q ph hq => ?_⟩, inv.ended, inv.mine, inv.commits, inv.nodup,
    inv.group, fun a => ?_⟩
  · have := inv.commit_busy q ph hq
    rw [inv.open_quiet p l hp] at this
    cases this
  · cases a with
    | beginOp p => simp only [step]; split <;> simp
    | commitStep p => simp only [step]; split <;> simp
    | logWrite p b =>
      simp only [step]
      split
      · rename_i l hp
        have hpos := inv.outstanding_pos hp
        have hout : ¬s.log.outstanding < 1 := by omega
        simp only [logWrite, hout, ↓reduceIte]
        split <;> simp
      · simp
    | endOp p =>
      simp only [step]
      split
      · rename_i l hp
        simp only [endOp, inv.open_quiet p l hp, Bool.false_eq_true, ↓reduceIte]
        split <;> simp
      · simp

end

theorem group_commit_isolated_shared : ∃ s : Sys (Fin 2), s.hist.ended.map (·.logged) = [[5], [5, 6]] ∧
    s.hist.commits.map (·.written) = [[5, 6]] ∧ ∀ o ∈ s.hist.ended, o.Together s.hist := by
  have h : (run step (fun _ _ => true) (boot (Fin 2))
      ([.beginOp 0, .logWrite 0 5, .beginOp 1, .endOp 0, .logWrite 1 5, .logWrite 1 6, .endOp 1] ++
        List.replicate 10 (.commitStep 1))).any (fun t : Sys (Fin 2) =>
          t.hist.ended.map (·.logged) = [[5], [5, 6]] && t.hist.commits.map (·.written) = [[5, 6]]) = true := by
    decide +kernel
  obtain ⟨t, hrun, ht⟩ := (Option.any_eq_true _ _).mp h
  simp only [Bool.and_eq_true, decide_eq_true_eq] at ht
  have hreach : Reach (Init LOGSIZE) step (fun _ _ => True) t :=
    Reach.of_run (fun _ _ _ => trivial) _ (.init (boot_init _)) hrun
  exact ⟨t, ht.1, ht.2, (group_commit_isolated hreach).2.1⟩

end Xv6.Group
