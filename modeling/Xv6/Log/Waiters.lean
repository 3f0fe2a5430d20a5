import Xv6.Log.Isolation

/-! Nobody waits in `begin_op` for nothing: what a waiter waits for can only come with an `end_op`, which calls
    `wakeup(&log)` before it lets go of the lock. -/

namespace Xv6.Group
open Lib

def Log.full (log : Log) : Prop := (log.lh.n : Int) + (log.outstanding + 1) * MAXOPBLOCKS > LOGSIZE

def Phase.emptied : Phase → Bool
  | .eraseHead | .finish => true
  | _ => false

structure Waiting {P : Type} (s : Sys P) : Prop where
  asleep : ∀ p, s.pc p = .asleep → s.log.committing = true ∨ Log.full s.log
  emptied : ∀ p ph, s.pc p = .commit ph → ph.emptied = true → s.log.lh.n = 0
  quiet : s.log.outstanding = 0 → s.log.committing = false → s.log.lh.n = 0

theorem Init.waiting {P : Type} {s : Sys P} {size : Nat} (h : Init size s) : Waiting s := by
  obtain ⟨-, -, -, hn, hpc, -⟩ := h
  constructor <;> simp [hpc, hn]

theorem not_asleep_wakeup {P : Type} (pc : P → Pc) (q : P) : wakeup pc q ≠ .asleep := by
  unfold wakeup
  split
  · simp
  · assumption

theorem Inv.outstanding_nonneg {P : Type} [Fintype P] {s : Sys P} (inv : Inv s) : 0 ≤ s.log.outstanding := by
  rw [inv.outstanding]
  exact Finset.sum_nonneg fun p _ => (s.pc p).ops_nonneg

section
variable {P : Type} [Fintype P] [DecidableEq P] {s t : Sys P} {p : P}

theorem waiting_beginOp (inv : Inv s) (w : Waiting s) (h : step s (.beginOp p) = .ok t) : Waiting t := by
  obtain ⟨-, rfl⟩ := step_beginOp h
  have sleeps : s.log.committing = true ∨ Log.full s.log → Waiting { s with pc := Function.update s.pc p .asleep } := by
    intro hwait
    refine ⟨fun _ _ => hwait, fun q ph hq => w.emptied q ph (update_back (by simp) hq), w.quiet⟩
  unfold beginOp
  split
  · rename_i hcom; exact sleeps (.inl hcom)
  · split
    · rename_i hfull; exact sleeps (.inr hfull)
    · refine ⟨fun q hq => ?_, fun q ph hq => w.emptied q ph (update_back (by simp) hq), fun h0 _ => ?_⟩
      · -- one operation more: who waited for space still does
        refine (w.asleep q (update_back (by simp) hq)).imp id fun hf => ?_
        simp only [Log.full, MAXOPBLOCKS, LOGSIZE] at hf ⊢
        omega
      · have hpos := inv.outstanding_nonneg
        change s.log.outstanding + 1 = 0 at h0
        omega

theorem waiting_logWrite {b : Nat} (inv : Inv s) (w : Waiting s) (h : step s (.logWrite p b) = .ok t) : Waiting t := by
  obtain ⟨l, hp, -, -, rfl⟩ := step_logWrite h
  have hpos := inv.outstanding_pos hp
  have hquiet := inv.open_quiet p l hp
  refine ⟨fun q hq => ?_, fun q ph hq => ?_, fun h0 _ => ?_⟩
  · -- the header only grows
    have hgrow : s.log.lh.n ≤ (s.log.lh.log b).n := by
      unfold LogHeader.log
      dsimp only
      split <;> omega
    refine (w.asleep q (update_back (by simp) hq)).imp id fun hf => ?_
    simp only [Log.full, MAXOPBLOCKS, LOGSIZE] at hf ⊢
    omega
  · have := inv.commit_busy q ph (update_back (by simp) hq)
    rw [hquiet] at this
    cases this
  · change s.log.outstanding = 0 at h0
    omega

theorem waiting_endOp (inv : Inv s) (h : step s (.endOp p) = .ok t) : Waiting t := by
  obtain ⟨l, hp, hquiet, -, ⟨-, hpc, hlog⟩ | ⟨hne, hpc, hlog⟩⟩ := step_endOp h
  · -- the last operation: everybody now waits for the commit
    refine ⟨fun _ _ => .inl (by rw [hlog]), fun q ph hq hph => ?_, fun _ hc => ?_⟩
    · rw [hpc] at hq
      rcases update_cases hq with ⟨-, hv⟩ | ⟨-, hq⟩
      · cases hv; cases hph
      · have := inv.commit_busy q ph hq
        rw [hquiet] at this
        cases this
    · rw [hlog] at hc
      cases hc
  · refine ⟨fun q hq => ?_, fun q ph hq => ?_, fun h0 _ => ?_⟩
    · rw [hpc] at hq
      exact absurd hq (not_asleep_wakeup _ q)
    · rw [hpc, wakeup_commit] at hq
      have := inv.commit_busy q ph (update_back (by simp) hq)
      rw [hquiet] at this
      cases this
    · rw [hlog] at h0
      change s.log.outstanding - 1 = 0 at h0
      omega

theorem Inv.waiting {ph ph' : Phase} {hist : History} {n : Nat} (inv : Inv s) (hp : s.pc p = .commit ph)
    (hempty : ph'.emptied = true → n = 0) :
    Waiting ⟨{ s.log with lh := { s.log.lh with n } }, Function.update s.pc p (.commit ph'), hist⟩ := by
  have hbusy := inv.commit_busy p ph hp
  refine ⟨fun _ _ => .inl hbusy, fun q ph₂ hq hph => ?_, fun _ hc => ?_⟩
  · rcases update_cases hq with ⟨-, hv⟩ | ⟨hne, hq⟩
    · cases hv
      exact hempty hph
    · exact absurd (inv.commit_unique q p ph₂ ph hq hp) hne
  · change s.log.committing = false at hc
    rw [hbusy] at hc
    cases hc

theorem waiting_commitStep (inv : Inv s) (w : Waiting s) (h : step s (.commitStep p) = .ok t) : Waiting t := by
  obtain ⟨ph, hp, rfl⟩ := step_commitStep h
  cases ph with
  | enter =>
    refine inv.waiting (n := s.log.lh.n) hp fun hph => ?_
    by_contra hn
    rw [if_pos (Nat.pos_of_ne_zero hn)] at hph
    cases hph
  | writeLog tail =>
    refine inv.waiting (n := s.log.lh.n) hp fun hph => ?_
    split at hph <;> cases hph
  | writeHead => exact inv.waiting (n := s.log.lh.n) hp fun hph => by cases hph
  | install tail =>
    simp only [commitStep]
    split
    · exact inv.waiting (n := s.log.lh.n) hp fun hph => by cases hph
    · exact inv.waiting (n := s.log.lh.n) hp fun hph => by cases hph
  | clear => exact inv.waiting (n := 0) hp fun _ => rfl
  | eraseHead => exact inv.waiting (n := s.log.lh.n) hp fun _ => w.emptied p .eraseHead hp rfl
  | finish =>
    have h0 : s.log.lh.n = 0 := w.emptied p .finish hp rfl
    exact ⟨fun q hq => absurd hq (not_asleep_wakeup _ q), fun _ _ _ _ => h0, fun _ _ => h0⟩

theorem waiting_step {a : Action P} (inv : Inv s) (w : Waiting s) (h : step s a = .ok t) : Waiting t := by
  cases a with
  | beginOp p => exact waiting_beginOp inv w h
  | logWrite p b => exact waiting_logWrite inv w h
  | endOp p => exact waiting_endOp inv h
  | commitStep p => exact waiting_commitStep inv w h

theorem waiting_reach {size : Nat} {ok : Sys P → Action P → Prop} (h : Reach (Init size) step ok s) :
    Inv s ∧ Waiting s :=
  h.invariant (I := fun s => Inv s ∧ Waiting s) (fun _ h0 => ⟨inv_init h0, Init.waiting h0⟩)
    fun _ _ _ ⟨inv, w⟩ _ hs => ⟨inv_step inv hs, waiting_step inv w hs⟩

/-- A process asleep in `begin_op` still has its reason, and there is an operation or a commit that will wake it. -/
theorem begin_op_waiter {size : Nat} (h : Reach (Init size) step (fun _ _ => True) s) :
    (∀ p, s.pc p = .asleep →
      (s.log.committing = true ∨ (s.log.lh.n : Int) + (s.log.outstanding + 1) * MAXOPBLOCKS > LOGSIZE) ∧
      (s.log.committing = true ∨ 0 < s.log.outstanding)) ∧
    (s.log.outstanding = 0 → s.log.committing = false → s.log.lh.n = 0) := by
  obtain ⟨inv, w⟩ := waiting_reach h
  refine ⟨fun p hp => ⟨w.asleep p hp, ?_⟩, w.quiet⟩
  rcases w.asleep p hp with hc | hfull
  · exact .inl hc
  · cases hc : s.log.committing with
    | true => exact .inl rfl
    | false =>
      -- an empty log has room for one operation
      refine .inr (lt_of_le_of_ne inv.outstanding_nonneg fun h0 => ?_)
      have hn := w.quiet h0.symm hc
      simp only [Log.full, hn, ← h0, MAXOPBLOCKS, LOGSIZE] at hfull
      omega

end

theorem begin_op_waiter_full : ∃ s : Sys (Fin 4), s.pc 3 = .asleep ∧ s.log.committing = false ∧ 0 < s.log.outstanding := by
  let trace : List (Action (Fin 4)) := [.beginOp 0, .beginOp 1, .beginOp 2, .beginOp 3]
  have h : (run step (fun _ _ => true) (boot (Fin 4)) trace).any (fun s =>
      s.pc 3 = .asleep ∧ s.log.committing = false) = true := by
    decide +kernel
  obtain ⟨s, hrun, hs⟩ := (Option.any_eq_true _ _).mp h
  obtain ⟨h3, hc⟩ := of_decide_eq_true hs
  have hmain := begin_op_waiter (Reach.of_run (fun _ _ _ => trivial) _ (.init (boot_init _)) hrun)
  refine ⟨s, h3, hc, (hmain.1 3 h3).2.resolve_left fun hc' => ?_⟩
  rw [hc] at hc'
  cases hc'

end Xv6.Group
