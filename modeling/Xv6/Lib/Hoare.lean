import Mathlib.Algebra.Order.Ring.Int

/-! Weakest preconditions for state with exceptions: `wp m Q E s` says that from `s` a normal end of `m` satisfies `Q`
    and an abnormal one, a crash or a panic, satisfies `E`. -/

namespace Xv6.Lib

variable {ε σ α β : Type}

def wp (m : EStateM ε σ α) (Q : α → σ → Prop) (E : ε → σ → Prop) (s : σ) : Prop :=
  match m s with
  | .ok a t => Q a t
  | .error e t => E e t

def view (f : σ → α) : EStateM ε σ α := fun s => .ok (f s) s

def change (f : σ → σ) : EStateM ε σ Unit := fun s => .ok () (f s)

def halt (e : ε) : EStateM ε σ α := fun s => .error e s

def doIf (c : Prop) [Decidable c] (m : EStateM ε σ Unit) : EStateM ε σ Unit := if c then m else pure ()

def stopIf (c : Prop) [Decidable c] (e : ε) : EStateM ε σ Unit := doIf c (halt e)

def loop (f : Nat → EStateM ε σ Unit) : Nat → EStateM ε σ Unit
  | 0 => pure ()
  | n + 1 => loop f n >>= fun _ => f n

/-- `for (; a < hi; a += d)` over machine integers below `w`, with a body that may leave the loop. It ends with
    `stuck` after `fuel` tests. -/
def upto (stuck : ε) (d w hi : Nat) (body : Nat → EStateM ε σ (Option β)) : Nat → Nat → EStateM ε σ (Option β)
  | 0, _ => halt stuck
  | fuel + 1, a =>
    if a < hi then
      body a >>= fun
        | some b => pure (some b)
        | none => upto stuck d w hi body fuel ((a + d) % w)
    else pure none

/-- `for (a = lo; a < hi; a += d)`: as many tests as the loop makes unless `a` wraps around. -/
def forUp (stuck : ε) (d w lo hi : Nat) (body : Nat → EStateM ε σ (Option β)) : EStateM ε σ (Option β) :=
  upto stuck d w hi body ((hi - lo) / d + 2) lo

section Rules
variable {m : EStateM ε σ α} {Q Q' : α → σ → Prop} {E E' : ε → σ → Prop} {s : σ}

theorem wp_mono (h : wp m Q' E' s) (hQ : ∀ a t, Q' a t → Q a t) (hE : ∀ e t, E' e t → E e t) : wp m Q E s := by
  unfold wp at h ⊢
  split at h
  · exact hQ _ _ h
  · exact hE _ _ h

theorem wp_post (h : wp m Q' E s) (hQ : ∀ a t, Q' a t → Q a t) : wp m Q E s :=
  wp_mono h hQ fun _ _ he => he

theorem wp_and (h : wp m Q E s) (h' : wp m Q' E' s) :
    wp m (fun a t => Q a t ∧ Q' a t) (fun e t => E e t ∧ E' e t) s := by
  unfold wp at h h' ⊢
  split at h
  · rename_i heq
    rw [heq] at h'
    exact ⟨h, h'⟩
  · rename_i heq
    rw [heq] at h'
    exact ⟨h, h'⟩

@[simp] theorem wp_pure {a : α} : wp (pure a) Q E s ↔ Q a s := Iff.rfl

@[simp] theorem wp_view {f : σ → α} : wp (view f) Q E s ↔ Q (f s) s := Iff.rfl

@[simp] theorem wp_change {f : σ → σ} {Q : Unit → σ → Prop} : wp (change f) Q E s ↔ Q () (f s) := Iff.rfl

@[simp] theorem wp_halt {e : ε} : wp (halt e : EStateM ε σ α) Q E s ↔ E e s := Iff.rfl

@[simp] theorem wp_bind {f : α → EStateM ε σ β} {R : β → σ → Prop} :
    wp (m >>= f) R E s ↔ wp m (fun a t => wp (f a) R E t) E s := by
  simp only [wp, bind, EStateM.bind]
  cases m s <;> rfl

theorem wp_then {f : α → EStateM ε σ β} {R : β → σ → Prop} (h : wp m Q E s)
    (hf : ∀ a t, Q a t → wp (f a) R E t) : wp (m >>= f) R E s :=
  wp_bind.mpr (wp_post h hf)

theorem wp_seq {f : α → EStateM ε σ β} {R : β → σ → Prop} (h : wp m (fun a t => wp (f a) R E' t) E s)
    (hE : ∀ e t, E e t → E' e t) : wp (m >>= f) R E' s :=
  wp_bind.mpr (wp_mono h (fun _ _ ht => ht) hE)

theorem wp_ite {c : Prop} [Decidable c] {m₁ m₂ : EStateM ε σ α} :
    wp (if c then m₁ else m₂) Q E s ↔ if c then wp m₁ Q E s else wp m₂ Q E s := by
  split <;> rfl

@[simp] theorem wp_doIf {c : Prop} [Decidable c] {m : EStateM ε σ Unit} {Q : Unit → σ → Prop} :
    wp (doIf c m) Q E s ↔ (c → wp m Q E s) ∧ (¬c → Q () s) := by
  unfold doIf
  by_cases hc : c <;> simp [hc]

@[simp] theorem wp_stopIf {c : Prop} [Decidable c] {e : ε} {Q : Unit → σ → Prop} :
    wp (stopIf c e) Q E s ↔ (c → E e s) ∧ (¬c → Q () s) := wp_doIf

theorem wp_loop {f : Nat → EStateM ε σ Unit} {I : Nat → σ → Prop} {n : Nat} (h0 : I 0 s)
    (hstep : ∀ i < n, ∀ t, I i t → wp (f i) (fun _ => I (i + 1)) E t) : wp (loop f n) (fun _ => I n) E s := by
  induction n with
  | zero => exact h0
  | succ n ih =>
    rw [loop, wp_bind]
    exact wp_mono (ih fun i hi => hstep i (by omega)) (fun _ t ht => hstep n (by omega) t ht) fun _ _ h => h

theorem wp_loop_post {f : Nat → EStateM ε σ Unit} {I : Nat → σ → Prop} {R : Unit → σ → Prop} {n : Nat} (h0 : I 0 s)
    (hstep : ∀ i < n, ∀ t, I i t → wp (f i) (fun _ => I (i + 1)) E t) (hpost : ∀ t, I n t → R () t) :
    wp (loop f n) R E s :=
  wp_mono (wp_loop h0 hstep) (fun _ t ht => hpost t ht) fun _ _ h => h

section Upto
variable {stuck : ε} {d w lo hi : Nat} {body : Nat → EStateM ε σ (Option β)} {R : Option β → σ → Prop}
  {I : Nat → σ → Prop}

theorem wp_upto (hbody : ∀ a t, a < hi → I a t →
      wp (body a) (fun r t' => r.elim (a + d < w ∧ I (a + d) t') fun b => R (some b) t') E t)
    (hend : ∀ a t, hi ≤ a → I a t → R none t) {fuel a : Nat} {t : σ} (hfuel : hi ≤ a + d * fuel) (h : I a t) :
    wp (upto stuck d w hi body (fuel + 1) a) R E t := by
  induction fuel generalizing a t with
  | zero => rw [upto, if_neg (by omega)]; exact hend a t (by omega) h
  | succ fuel ih =>
    rw [upto]
    by_cases ha : a < hi
    · rw [if_pos ha, wp_bind]
      refine wp_mono (hbody a t ha h) (fun r t' hr => ?_) fun _ _ he => he
      cases r with
      | none =>
        obtain ⟨hw, hI⟩ := hr
        rw [Nat.mod_eq_of_lt hw]
        exact ih (by rw [Nat.mul_succ] at hfuel; omega) hI
      | some b => exact hr
    · rw [if_neg ha]
      exact hend a t (by omega) h

theorem wp_forUp (hd : 0 < d) (h0 : I lo s) (hbody : ∀ a t, a < hi → I a t →
      wp (body a) (fun r t' => r.elim (a + d < w ∧ I (a + d) t') fun b => R (some b) t') E t)
    (hend : ∀ a t, hi ≤ a → I a t → R none t) : wp (forUp stuck d w lo hi body) R E s := by
  refine wp_upto hbody hend ?_ h0
  have := Nat.div_add_mod (hi - lo) d
  have := Nat.mod_lt (hi - lo) hd
  rw [Nat.mul_succ]
  omega

theorem wp_forUp_any {I : σ → Prop} (h0 : I s) (hstuck : ∀ t, I t → E stuck t)
    (hbody : ∀ a t, I t → wp (body a) (fun r t' => r.elim (I t') fun b => R (some b) t') E t)
    (hend : ∀ t, I t → R none t) : wp (forUp stuck d w lo hi body) R E s := by
  unfold forUp
  generalize (hi - lo) / d + 2 = fuel
  generalize lo = a
  induction fuel generalizing a s with
  | zero => exact hstuck s h0
  | succ fuel ih =>
    rw [upto]
    split
    · rw [wp_bind]
      refine wp_mono (hbody a s h0) (fun r t hr => ?_) fun _ _ he => he
      cases r with
      | none => exact ih hr _
      | some b => exact hr
    · exact hend s h0

end Upto

end Rules

-- a loop with a large number of rounds is not to be unrolled
attribute [irreducible] loop

end Xv6.Lib
