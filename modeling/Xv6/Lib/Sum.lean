import Mathlib.Algebra.BigOperators.Group.Finset.Piecewise
import Mathlib.Algebra.Order.BigOperators.Group.Finset
import Mathlib.Algebra.Order.Ring.Int
import Mathlib.Data.Fintype.BigOperators

/-! A finite set of processes, each at some position, of which one moves. -/

namespace Xv6.Lib

section
variable {P β : Type} [DecidableEq P] {f : P → β} {p q : P} {v x : β}

theorem update_cases (h : Function.update f p v q = x) : (q = p ∧ v = x) ∨ (q ≠ p ∧ f q = x) := by
  by_cases hqp : q = p
  · subst hqp
    rw [Function.update_self] at h
    exact Or.inl ⟨rfl, h⟩
  · rw [Function.update_of_ne hqp] at h
    exact Or.inr ⟨hqp, h⟩

theorem update_back (hv : v ≠ x) (h : Function.update f p v q = x) : f q = x := by
  rcases update_cases h with ⟨-, h⟩ | ⟨-, h⟩
  · exact absurd h hv
  · exact h

end

section
variable {P β : Type} [Fintype P]

theorem sum_update [DecidableEq P] (w : β → Int) (f : P → β) (p : P) (v : β) :
    ∑ q, w (Function.update f p v q) = (∑ q, w (f q)) - w (f p) + w v := by
  have hsplit : ∀ g : P → Int, ∑ q, g q = g p + ∑ q ∈ Finset.univ.erase p, g q := fun g =>
    (Finset.add_sum_erase _ g (Finset.mem_univ p)).symm
  have hrest : ∑ q ∈ Finset.univ.erase p, w (Function.update f p v q) = ∑ q ∈ Finset.univ.erase p, w (f q) :=
    Finset.sum_congr rfl fun q hq => by rw [Function.update_of_ne (Finset.ne_of_mem_erase hq)]
  rw [hsplit fun q => w (Function.update f p v q), hsplit fun q => w (f q), hrest, Function.update_self]
  omega

theorem le_sum_of_nonneg {g : P → Int} (hg : ∀ q, 0 ≤ g q) (p : P) : g p ≤ ∑ q, g q :=
  Finset.single_le_sum (fun q _ => hg q) (Finset.mem_univ p)

end

end Xv6.Lib
