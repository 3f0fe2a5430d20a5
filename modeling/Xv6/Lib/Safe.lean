import Xv6.Lib.Hoare

/-! Invariants that every part of a program keeps, with rules that follow the shape of programs. -/

namespace Xv6.Lib

variable {ε σ α β : Type} {I : σ → Prop} {F : ε → Prop}

/-- From a state in `I`, `m` ends in a state in `I`, or abnormally for a reason in `F`. -/
def Safe (I : σ → Prop) (F : ε → Prop) (m : EStateM ε σ α) : Prop :=
  ∀ s, I s → wp m (fun _ t => I t) (fun e _ => F e) s

namespace Safe
variable {m : EStateM ε σ α}

theorem pure (a : α) : Safe I F (Pure.pure a : EStateM ε σ α) := fun _ hs => wp_pure.mpr hs

theorem view (f : σ → α) : Safe I F (Lib.view f : EStateM ε σ α) := fun _ hs => wp_view.mpr hs

theorem change {f : σ → σ} (h : ∀ s, I s → I (f s)) : Safe I F (Lib.change f : EStateM ε σ Unit) :=
  fun s hs => wp_change.mpr (h s hs)

theorem halt {e : ε} (h : F e) : Safe I F (Lib.halt e : EStateM ε σ α) := fun _ _ => wp_halt.mpr h

theorem bind {f : α → EStateM ε σ β} (hm : Safe I F m) (hf : ∀ a, Safe I F (f a)) : Safe I F (m >>= f) :=
  fun s hs => wp_bind.mpr (wp_post (hm s hs) (fun a t ht => hf a t ht))

theorem ite {c : Prop} [Decidable c] {m₁ m₂ : EStateM ε σ α} (h₁ : c → Safe I F m₁) (h₂ : ¬c → Safe I F m₂) :
    Safe I F (if c then m₁ else m₂) := by
  by_cases hc : c
  · rw [if_pos hc]; exact h₁ hc
  · rw [if_neg hc]; exact h₂ hc

theorem when {c : Prop} [Decidable c] {m : EStateM ε σ PUnit} {f : PUnit → EStateM ε σ β} (hm : Safe I F m)
    (hf : ∀ a, Safe I F (f a)) : Safe I F (if c then m >>= f else f ()) :=
  ite (fun _ => hm.bind hf) fun _ => hf ()

theorem loop {f : Nat → EStateM ε σ Unit} {n : Nat} (h : ∀ i, Safe I F (f i)) : Safe I F (Lib.loop f n) :=
  fun _ hs => wp_loop (I := fun _ t => I t) hs fun i _ t ht => h i t ht

theorem upto {stuck : ε} {d w hi : Nat} {body : Nat → EStateM ε σ (Option β)} (hs : F stuck)
    (h : ∀ a, Safe I F (body a)) (fuel a : Nat) : Safe I F (Lib.upto stuck d w hi body fuel a) := by
  induction fuel generalizing a with
  | zero => exact halt hs
  | succ fuel ih =>
    refine ite (fun _ => (h a).bind fun r => ?_) fun _ => pure none
    cases r with
    | none => exact ih _
    | some b => exact pure _

theorem forUp {stuck : ε} {d w lo hi : Nat} {body : Nat → EStateM ε σ (Option β)} (hs : F stuck)
    (h : ∀ a, Safe I F (body a)) : Safe I F (Lib.forUp stuck d w lo hi body) :=
  upto hs h _ _

theorem returns (h : Safe I F m) {Q : α → σ → Prop} {E : ε → σ → Prop} {s : σ} (hs : I s) (hm : wp m Q E s)
    (hE : ∀ e t, E e t → ¬ F e) : ∃ a t, m s = .ok a t ∧ Q a t := by
  have h' := h s hs
  unfold wp at h' hm
  cases hrun : m s with
  | ok a t =>
    rw [hrun] at hm
    exact ⟨a, t, rfl, hm⟩
  | error e t =>
    rw [hrun] at h' hm
    exact absurd h' (hE e t hm)

end Safe

end Xv6.Lib
