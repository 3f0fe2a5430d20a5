import Xv6.Lib.Hoare

/-! What a computation leaves alone: it only moves up in a preorder on states. The rules follow the shape of programs.
    -/

namespace Xv6.Lib

structure Frame (σ : Type) where
  rel : σ → σ → Prop
  refl : ∀ s, rel s s
  trans : ∀ {s t u}, rel s t → rel t u → rel s u

def Frame.of {σ β : Type} (f : σ → β) : Frame σ where
  rel s t := f t = f s
  refl _ := rfl
  trans h h' := h'.trans h

variable {ε σ α β : Type} {R : Frame σ} {F : ε → Prop}

/-- From every state `m` ends in a state above it, or abnormally for a reason in `F`. -/
def Stable (R : Frame σ) (F : ε → Prop) (m : EStateM ε σ α) : Prop :=
  ∀ s, wp m (fun _ t => R.rel s t) (fun e _ => F e) s

namespace Stable
variable {m : EStateM ε σ α}

theorem wp (h : Stable R F m) {Q : α → σ → Prop} {E : ε → σ → Prop} {s : σ} (hQ : ∀ a t, R.rel s t → Q a t)
    (hE : ∀ e t, F e → E e t) : Lib.wp m Q E s :=
  wp_mono (h s) hQ hE

theorem mono {R' : Frame σ} {F' : ε → Prop} (h : Stable R F m) (hR : ∀ s t, R.rel s t → R'.rel s t)
    (hF : ∀ e, F e → F' e) : Stable R' F' m :=
  fun s => h.wp (fun _ t => hR s t) fun e _ => hF e

theorem and_wp (h : Stable R (fun _ : ε => True) m) {Q : α → σ → Prop} {E : ε → σ → Prop} {s : σ} (hm : Lib.wp m Q E s) :
    Lib.wp m (fun a t => Q a t ∧ R.rel s t) E s := by
  have hs := h s
  unfold Lib.wp at hs hm ⊢
  cases hr : m s with
  | ok a t =>
    rw [hr] at hs hm
    exact ⟨hm, hs⟩
  | error e t =>
    rw [hr] at hm
    exact hm

theorem pure (a : α) : Stable R F (Pure.pure a : EStateM ε σ α) := fun s => wp_pure.mpr (R.refl s)

theorem view (f : σ → α) : Stable R F (Lib.view f : EStateM ε σ α) := fun s => wp_view.mpr (R.refl s)

theorem change {f : σ → σ} (h : ∀ s, R.rel s (f s)) : Stable R F (Lib.change f : EStateM ε σ Unit) :=
  fun s => wp_change.mpr (h s)

theorem halt {e : ε} (h : F e) : Stable R F (Lib.halt e : EStateM ε σ α) := fun _ => wp_halt.mpr h

theorem bind {f : α → EStateM ε σ β} (hm : Stable R F m) (hf : ∀ a, Stable R F (f a)) : Stable R F (m >>= f) :=
  fun _ => wp_bind.mpr (hm.wp (fun a _ ht => (hf a).wp (fun _ _ hu => R.trans ht hu) fun _ _ he => he) fun _ _ he => he)

theorem ite {c : Prop} [Decidable c] {m₁ m₂ : EStateM ε σ α} (h₁ : c → Stable R F m₁) (h₂ : ¬c → Stable R F m₂) :
    Stable R F (if c then m₁ else m₂) := by
  by_cases hc : c
  · rw [if_pos hc]; exact h₁ hc
  · rw [if_neg hc]; exact h₂ hc

theorem doIf {c : Prop} [Decidable c] {m : EStateM ε σ Unit} (h : Stable R F m) : Stable R F (Lib.doIf c m) :=
  ite (fun _ => h) fun _ => pure ()

theorem stopIf {c : Prop} [Decidable c] {e : ε} (h : F e) : Stable R F (Lib.stopIf c e : EStateM ε σ Unit) :=
  doIf (halt h)

theorem loop {f : Nat → EStateM ε σ Unit} {n : Nat} (h : ∀ i, Stable R F (f i)) : Stable R F (Lib.loop f n) :=
  fun s => wp_loop (I := fun _ t => R.rel s t) (R.refl s) fun i _ _ ht => (h i).wp (fun _ _ hu => R.trans ht hu) fun _ _ he => he

theorem upto {stuck : ε} {d w hi : Nat} {body : Nat → EStateM ε σ (Option β)} (hs : F stuck)
    (h : ∀ a, Stable R F (body a)) (fuel a : Nat) : Stable R F (Lib.upto stuck d w hi body fuel a) := by
  induction fuel generalizing a with
  | zero => exact halt hs
  | succ fuel ih =>
    refine ite (fun _ => (h a).bind fun r => ?_) fun _ => pure none
    cases r with
    | none => exact ih _
    | some b => exact pure _

theorem forUp {stuck : ε} {d w lo hi : Nat} {body : Nat → EStateM ε σ (Option β)} (hs : F stuck)
    (h : ∀ a, Stable R F (body a)) : Stable R F (Lib.forUp stuck d w lo hi body) :=
  upto hs h _ _

end Stable

theorem wp_forM {l : List α} {f : α → EStateM ε σ PUnit} {I : List α → σ → Prop} {E : ε → σ → Prop} {s : σ} (h0 : I l s)
    (hstep : ∀ a l t, I (a :: l) t → wp (f a) (fun _ => I l) E t) : wp (l.forM f) (fun _ => I []) E s := by
  induction l generalizing s with
  | nil => exact h0
  | cons a l ih =>
    change wp (f a >>= fun _ => l.forM f) _ E s
    exact wp_then (hstep a l s h0) fun _ t ht => ih ht

end Xv6.Lib
