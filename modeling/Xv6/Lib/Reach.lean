import Mathlib.Algebra.Order.Ring.Int
import Mathlib.Data.List.Basic

/-! Transition systems given by a partial step function, and the induction over their runs. -/

namespace Xv6.Lib

variable {σ τ α β ε δ : Type}

theorem bind_eq_ok {x : Except ε α} {f : α → Except ε β} {b : β} :
    x >>= f = .ok b ↔ ∃ a, x = .ok a ∧ f a = .ok b := by
  cases x with
  | error e => exact ⟨nofun, nofun⟩
  | ok a => exact ⟨fun h => ⟨a, rfl, h⟩, fun ⟨_, ha, h⟩ => by rwa [← Except.ok.inj ha] at h⟩

/-- The states reached from an initial one by actions that all satisfy `ok` where they are taken. -/
inductive Reach (init : σ → Prop) (step : σ → α → Except ε σ) (ok : σ → α → Prop) : σ → Prop where
  | init {s : σ} : init s → Reach init step ok s
  | step {s t : σ} (a : α) : Reach init step ok s → ok s a → step s a = .ok t → Reach init step ok t

namespace Reach
variable {init : σ → Prop} {step : σ → α → Except ε σ} {ok ok' : σ → α → Prop}

theorem invariant {I : σ → Prop} (hinit : ∀ s, init s → I s)
    (hstep : ∀ s t a, I s → ok s a → step s a = .ok t → I t) {s : σ} (h : Reach init step ok s) : I s := by
  induction h with
  | init h0 => exact hinit _ h0
  | step a _ hok hs ih => exact hstep _ _ a ih hok hs

theorem mono (himp : ∀ s a, ok s a → ok' s a) {s : σ} (h : Reach init step ok s) : Reach init step ok' s := by
  induction h with
  | init h0 => exact .init h0
  | step a _ hok hs ih => exact .step a ih (himp _ a hok) hs

end Reach

/-- Running a list of actions that all pass the check `chk`, or nothing. -/
def run (step : σ → α → Except ε σ) (chk : σ → α → Bool) : σ → List α → Option σ
  | s, [] => some s
  | s, a :: as =>
    if chk s a then
      match step s a with
      | .ok t => run step chk t as
      | .error _ => none
    else none

theorem Reach.of_run {init : σ → Prop} {step : σ → α → Except ε σ} {ok : σ → α → Prop} {chk : σ → α → Bool}
    (hchk : ∀ s a, chk s a = true → ok s a) {s t : σ} (as : List α) (h : Reach init step ok s)
    (hrun : run step chk s as = some t) : Reach init step ok t := by
  induction as generalizing s with
  | nil => cases hrun; exact h
  | cons a as ih =>
    simp only [run] at hrun
    split at hrun
    · rename_i hok
      split at hrun
      · rename_i u hs
        exact ih (.step a h (hchk s a hok) hs) hrun
      · cases hrun
    · cases hrun

end Xv6.Lib
