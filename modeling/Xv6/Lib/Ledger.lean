import Mathlib.Algebra.Order.Ring.Int
import Mathlib.Data.Finset.Card
import Mathlib.Logic.Equiv.Defs

/-! Exclusive ownership of a stock of items by a free list and owners of one item each. -/

namespace Xv6.Lib

variable {O I : Type}

/-- Every item of the stock is free once, or held by exactly one owner, and nothing else is. -/
structure Exact (stock : I → Prop) (free : List I) (own : O → Option I) : Prop where
  nodup : free.Nodup
  free_mem : ∀ p ∈ free, stock p
  own_mem : ∀ o p, own o = some p → stock p
  inj : ∀ o o' p, own o = some p → own o' = some p → o = o'
  held : ∀ o p, own o = some p → p ∉ free
  cover : ∀ p, stock p → p ∈ free ∨ ∃ o, own o = some p

namespace Exact
variable {stock : I → Prop} {free : List I} {own own' : O → Option I} {o u : O} {p : I}

theorem congr (h : Exact stock free own) (he : ∀ o, own' o = own o) : Exact stock free own' := by
  obtain rfl : own' = own := funext he
  exact h

theorem relabel (h : Exact stock free own) (e : O ≃ O) (he : ∀ o, own' o = own (e o)) : Exact stock free own' where
  nodup := h.nodup
  free_mem := h.free_mem
  own_mem o p ho := h.own_mem (e o) p (he o ▸ ho)
  inj o o' p ho ho' := e.injective (h.inj (e o) (e o') p (he o ▸ ho) (he o' ▸ ho'))
  held o p ho := h.held (e o) p (he o ▸ ho)
  cover p hp := by
    rcases h.cover p hp with hfree | ⟨o, ho⟩
    · exact Or.inl hfree
    · exact Or.inr ⟨e.symm o, by rw [he, e.apply_symm_apply, ho]⟩

theorem take (h : Exact stock (p :: free) own) (ho : own o = none) (hp : own' o = some p)
    (hkeep : ∀ x, x ≠ o → own' x = own x) : Exact stock free own' := by
  obtain ⟨hnot, hnodup⟩ := List.nodup_cons.mp h.nodup
  have old : ∀ {x q}, own' x = some q → (x = o ∧ q = p) ∨ (x ≠ o ∧ own x = some q) := by
    intro x q hx
    by_cases hxo : x = o
    · subst hxo
      exact Or.inl ⟨rfl, (Option.some.inj (hp.symm.trans hx)).symm⟩
    · exact Or.inr ⟨hxo, (hkeep x hxo).symm.trans hx⟩
  have hfresh : ∀ {x}, own x ≠ some p := fun hx => h.held _ p hx List.mem_cons_self
  exact {
    nodup := hnodup
    free_mem := fun q hq => h.free_mem q (List.mem_cons_of_mem _ hq)
    own_mem := fun x q hx => by
      rcases old hx with ⟨-, rfl⟩ | ⟨-, hx⟩
      · exact h.free_mem q List.mem_cons_self
      · exact h.own_mem x q hx
    inj := fun x y q hx hy => by
      rcases old hx with ⟨rfl, rfl⟩ | ⟨-, hx'⟩
      · rcases old hy with ⟨rfl, -⟩ | ⟨-, hy⟩
        · rfl
        · exact absurd hy hfresh
      · rcases old hy with ⟨-, hq⟩ | ⟨-, hy⟩
        · exact absurd (hq ▸ hx') hfresh
        · exact h.inj x y q hx' hy
    held := fun x q hx => by
      rcases old hx with ⟨-, rfl⟩ | ⟨-, hx⟩
      · exact hnot
      · exact fun hq => h.held x q hx (List.mem_cons_of_mem _ hq)
    cover := fun q hq => by
      rcases h.cover q hq with hfree | ⟨x, hx⟩
      · rcases List.mem_cons.mp hfree with rfl | hfree
        · exact Or.inr ⟨o, hp⟩
        · exact Or.inl hfree
      · have hxo : x ≠ o := fun he => by rw [he, ho] at hx; cases hx
        exact Or.inr ⟨x, (hkeep x hxo).trans hx⟩ }

theorem give (h : Exact stock free own) (hp : own o = some p) (ho : own' o = none)
    (hkeep : ∀ x, x ≠ o → own' x = own x) : Exact stock (p :: free) own' := by
  have old : ∀ {x q}, own' x = some q → x ≠ o ∧ own x = some q := by
    intro x q hx
    have hxo : x ≠ o := fun he => by rw [he, ho] at hx; cases hx
    exact ⟨hxo, (hkeep x hxo).symm.trans hx⟩
  exact {
    nodup := List.nodup_cons.mpr ⟨h.held o p hp, h.nodup⟩
    free_mem := fun q hq => by
      rcases List.mem_cons.mp hq with rfl | hq
      · exact h.own_mem o q hp
      · exact h.free_mem q hq
    own_mem := fun x q hx => h.own_mem x q (old hx).2
    inj := fun x y q hx hy => h.inj x y q (old hx).2 (old hy).2
    held := fun x q hx hq => by
      rcases List.mem_cons.mp hq with rfl | hq
      · exact (old hx).1 (h.inj x o q (old hx).2 hp)
      · exact h.held x q (old hx).2 hq
    cover := fun q hq => by
      rcases h.cover q hq with hfree | ⟨x, hx⟩
      · exact Or.inl (List.mem_cons_of_mem _ hfree)
      · by_cases hxo : x = o
        · subst hxo
          cases hp.symm.trans hx
          exact Or.inl List.mem_cons_self
        · exact Or.inr ⟨x, (hkeep x hxo).trans hx⟩ }

theorem move (h : Exact stock free own) (hp : own o = some p) (hu : own u = none) (h1 : own' o = none)
    (h2 : own' u = some p) (hkeep : ∀ x, x ≠ o → x ≠ u → own' x = own x) : Exact stock free own' := by
  classical
  have hne : o ≠ u := fun he => by rw [he, hu] at hp; cases hp
  have given : Exact stock (p :: free) fun x => if x = o then none else own x :=
    h.give hp (if_pos rfl) fun x hx => if_neg hx
  refine given.take (o := u) (by rw [if_neg hne.symm, hu]) h2 fun x hx => ?_
  by_cases hxo : x = o
  · rw [if_pos hxo, hxo, h1]
  · rw [if_neg hxo, hkeep x hxo hx]

theorem bound (h : Exact stock free own) {n k : Nat} {w : I → Nat}
    (hw : ∀ p q, stock p → stock q → w p = w q → p = q)
    (hlt : ∀ p, stock p → w p < n) {f : Nat → O} (hf : ∀ i j, f i = f j → i = j)
    (hown : ∀ i < k, ∃ p, own (f i) = some p) : k ≤ n := by
  let g : Nat → Nat := fun i => ((own (f i)).map w).getD 0
  have hg : ∀ i < k, ∃ p, own (f i) = some p ∧ g i = w p := fun i hi => by
    obtain ⟨p, hp⟩ := hown i hi
    exact ⟨p, hp, by simp [g, hp]⟩
  have hinj : Set.InjOn g (Finset.range k) := by
    intro i hi j hj hij
    obtain ⟨p, hp, hgp⟩ := hg i (Finset.mem_range.mp hi)
    obtain ⟨q, hq, hgq⟩ := hg j (Finset.mem_range.mp hj)
    obtain rfl := hw p q (h.own_mem _ _ hp) (h.own_mem _ _ hq) (by rw [← hgp, ← hgq]; exact hij)
    exact hf i j (h.inj _ _ _ hp hq)
  have hmaps : Set.MapsTo g (Finset.range k) (Finset.range n) := fun i hi => by
    obtain ⟨p, hp, hgp⟩ := hg i (Finset.mem_range.mp hi)
    rw [hgp]
    exact Finset.mem_coe.mpr (Finset.mem_range.mpr (hlt p (h.own_mem _ _ hp)))
  simpa using Finset.card_le_card_of_injOn g hmaps hinj

end Exact

end Xv6.Lib
