import Mathlib.Algebra.BigOperators.Group.List.Basic
import Mathlib.Algebra.Order.Ring.Int
import Mathlib.Data.List.Pairwise

/-! Spans of memory counted in units of a fixed size, and lists of spans that tile other spans. -/

namespace Xv6.Lib

structure Span where
  addr : Nat
  units : Nat
  deriving DecidableEq, Repr

namespace Span
variable (u : Nat) (a b : Span)

def stop : Nat := a.addr + u * a.units

def Has (x : Nat) : Prop := a.addr ≤ x ∧ x < a.stop u

def Disjoint : Prop := a.stop u ≤ b.addr ∨ b.stop u ≤ a.addr

variable {u a b}

theorem Disjoint.symm (h : a.Disjoint u b) : b.Disjoint u a := Or.symm h

theorem addr_lt_stop (hu : 0 < u) (ha : 0 < a.units) : a.addr < a.stop u :=
  Nat.lt_add_of_pos_right (Nat.mul_pos hu ha)

theorem Disjoint.stop_le (h : a.Disjoint u b) (hlt : a.addr < b.addr) : a.stop u ≤ b.addr := by
  rcases h with h | h
  · exact h
  · unfold stop at h
    omega

theorem Disjoint.addr_ne (h : a.Disjoint u b) (hu : 0 < u) (ha : 0 < a.units) (hb : 0 < b.units) :
    a.addr ≠ b.addr := by
  have := addr_lt_stop hu ha
  have := addr_lt_stop hu hb
  rcases h with h | h <;> omega

end Span

/-- `bs` tiles what `rs` covers. -/
structure Tiling (u : Nat) (bs rs : List Span) : Prop where
  disjoint : bs.Pairwise (Span.Disjoint u)
  cover : ∀ x, (∃ b ∈ bs, b.Has u x) ↔ ∃ r ∈ rs, r.Has u x
  sum : (bs.map Span.units).sum = (rs.map Span.units).sum

namespace Tiling
variable {u : Nat} {bs bs' rs l : List Span}

theorem nil (u : Nat) : Tiling u [] [] := ⟨.nil, fun _ => by simp, rfl⟩

theorem perm (h : Tiling u bs rs) (hp : bs.Perm bs') : Tiling u bs' rs where
  disjoint := (hp.pairwise_iff fun hab => Span.Disjoint.symm hab).mp h.disjoint
  cover x := by
    rw [← h.cover]
    simp only [hp.mem_iff]
  sum := by rw [← h.sum, (hp.map _).sum_eq]

theorem cons_empty (h : Tiling u bs rs) {a : Nat} (hd : ∀ b ∈ bs, a ≤ b.addr) : Tiling u (⟨a, 0⟩ :: bs) rs where
  disjoint := List.pairwise_cons.mpr ⟨fun b hb => .inl (by simpa [Span.stop] using hd b hb), h.disjoint⟩
  cover x := by
    rw [← h.cover, List.exists_mem_cons_iff]
    refine or_iff_right fun hx => ?_
    have hx' : a ≤ x ∧ x < a + u * 0 := hx
    omega
  sum := by rw [List.map_cons, List.sum_cons, Nat.zero_add, h.sum]

theorem of_cons_empty {a : Nat} (h : Tiling u (⟨a, 0⟩ :: bs) rs) : Tiling u bs rs where
  disjoint := (List.pairwise_cons.mp h.disjoint).2
  cover x := by
    rw [← h.cover, List.exists_mem_cons_iff]
    refine (or_iff_right fun hx => ?_).symm
    have hx' : a ≤ x ∧ x < a + u * 0 := hx
    omega
  sum := by rw [← h.sum, List.map_cons, List.sum_cons, Nat.zero_add]

theorem has_append {a m n x : Nat} :
    Span.Has u ⟨a, m + n⟩ x ↔ Span.Has u ⟨a, m⟩ x ∨ Span.Has u ⟨a + u * m, n⟩ x := by
  simp only [Span.Has, Span.stop, Nat.mul_add]
  omega

theorem split {a m n : Nat} (h : Tiling u (⟨a, m + n⟩ :: l) rs) : Tiling u (⟨a, m⟩ :: ⟨a + u * m, n⟩ :: l) rs := by
  obtain ⟨hhead, htail⟩ := List.pairwise_cons.mp h.disjoint
  refine ⟨?_, fun x => ?_, ?_⟩
  · refine List.pairwise_cons.mpr ⟨fun b hb => ?_, List.pairwise_cons.mpr ⟨fun b hb => ?_, htail⟩⟩
    · rcases List.mem_cons.mp hb with rfl | hb
      · exact .inl (Nat.le_refl _)
      · have := hhead b hb
        simp only [Span.Disjoint, Span.stop, Nat.mul_add] at this ⊢
        omega
    · have := hhead b hb
      simp only [Span.Disjoint, Span.stop, Nat.mul_add] at this ⊢
      omega
  · rw [← h.cover]
    simp only [List.exists_mem_cons_iff, has_append, or_assoc]
  · rw [← h.sum]
    simp only [List.map_cons, List.sum_cons, Nat.add_assoc]

theorem join {a m n : Nat} (h : Tiling u (⟨a, m⟩ :: ⟨a + u * m, n⟩ :: l) rs) (hl : ∀ b ∈ l, b.addr ≠ a + u * m) :
    Tiling u (⟨a, m + n⟩ :: l) rs := by
  obtain ⟨hhead, hrest⟩ := List.pairwise_cons.mp h.disjoint
  obtain ⟨hnext, htail⟩ := List.pairwise_cons.mp hrest
  refine ⟨List.pairwise_cons.mpr ⟨fun b hb => ?_, htail⟩, fun x => ?_, ?_⟩
  · have h1 := hhead b (List.mem_cons_of_mem _ hb)
    have h2 := hnext b hb
    simp only [Span.Disjoint, Span.stop, Nat.mul_add] at h1 h2 ⊢
    have h3 := hl b hb
    rcases h1 with h1 | h1 <;> rcases h2 with h2 | h2 <;> omega
  · rw [← h.cover]
    simp only [List.exists_mem_cons_iff, has_append, or_assoc]
  · rw [← h.sum]
    simp only [List.map_cons, List.sum_cons, Nat.add_assoc]

theorem grow (h : Tiling u bs rs) {b : Span} (hb : ∀ x ∈ bs, b.Disjoint u x) : Tiling u (b :: bs) (b :: rs) where
  disjoint := List.pairwise_cons.mpr ⟨hb, h.disjoint⟩
  cover x := by
    simp only [List.exists_mem_cons_iff, h.cover]
  sum := by rw [List.map_cons, List.map_cons, List.sum_cons, List.sum_cons, h.sum]

theorem bounds (h : Tiling u bs rs) (hu : 0 < u) {b : Span} (hb : b ∈ bs) (hpos : 0 < b.units) :
    (∃ r ∈ rs, r.addr ≤ b.addr) ∧ ∃ r ∈ rs, b.stop u ≤ r.stop u := by
  have hlt := Span.addr_lt_stop hu hpos
  constructor
  · obtain ⟨r, hr, hx⟩ := (h.cover b.addr).mp ⟨b, hb, Nat.le_refl _, hlt⟩
    exact ⟨r, hr, hx.1⟩
  · obtain ⟨r, hr, hx⟩ := (h.cover (b.stop u - 1)).mp ⟨b, hb, by omega, by omega⟩
    refine ⟨r, hr, ?_⟩
    have := hx.2
    omega

end Tiling

end Xv6.Lib
