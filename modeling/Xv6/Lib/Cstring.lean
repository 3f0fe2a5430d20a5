import Mathlib.Algebra.Order.Ring.Int
import Mathlib.Data.List.Basic

/-! Text in memory that ends with a NUL. The NUL itself can be read, and nothing behind it. -/

namespace Xv6.Lib

def ch (c : Char) : UInt8 := c.toNat.toUInt8

def byteAt (s : List UInt8) (i : Nat) : Option UInt8 := (s ++ [0])[i]?

variable {s l : List UInt8} {i : Nat} {c : UInt8}

theorem lt_of_drop_eq_cons (h : s.drop i = c :: l) : i < s.length := by
  by_contra hge
  rw [List.drop_eq_nil_of_le (Nat.le_of_not_lt hge)] at h
  cases h

theorem drop_succ_of_drop (h : s.drop i = c :: l) : s.drop (i + 1) = l := by
  rw [← List.tail_drop, h, List.tail_cons]

theorem eq_length_of_drop (hi : i ≤ s.length) (h : s.drop i = []) : i = s.length :=
  Nat.le_antisymm hi (List.drop_eq_nil_iff.mp h)

theorem byteAt_of_drop (h : s.drop i = c :: l) : byteAt s i = some c := by
  have hlt := lt_of_drop_eq_cons h
  unfold byteAt
  rw [List.getElem?_append_left hlt, ← List.head?_drop, h, List.head?_cons]

@[simp] theorem byteAt_length : byteAt s s.length = some 0 := by
  unfold byteAt
  rw [List.getElem?_append_right (Nat.le_refl _), Nat.sub_self, List.getElem?_cons_zero]

theorem ok_bind {ε α β : Type} {a : α} {f : α → Except ε β} : (Except.ok a >>= f) = f a := rfl

end Xv6.Lib
