import Mathlib.Algebra.Order.Ring.Int

/-! Fixed-size byte arrays read and written through little-endian fields. -/

namespace Xv6.Lib

def Bytes (n : Nat) : Type := Fin n → UInt8

namespace Bytes
variable {n : Nat}

def get (b : Bytes n) (i : Nat) : UInt8 := if h : i < n then b ⟨i, h⟩ else 0

def fill (c : UInt8) : Bytes n := fun _ => c

def zero : Bytes n := fun _ => 0

/-- Replace the bytes at offsets `[off, off + len)` by `f 0, f 1, ...`. -/
def write (b : Bytes n) (off len : Nat) (f : Nat → UInt8) : Bytes n :=
  fun i => if off ≤ i.val ∧ i.val < off + len then f (i.val - off) else b i

@[simp] theorem get_zero (i : Nat) : (zero : Bytes n).get i = 0 := by
  unfold get zero
  split <;> rfl

theorem get_write (b : Bytes n) (off len : Nat) (f : Nat → UInt8) (i : Nat) (hi : i < n) :
    (b.write off len f).get i = if off ≤ i ∧ i < off + len then f (i - off) else b.get i := by
  simp [get, write, hi]

theorem get_write_of_lt {b : Bytes n} {off len : Nat} {f : Nat → UInt8} {i : Nat} (h : i < off) :
    (b.write off len f).get i = b.get i := by
  unfold get write
  split
  · simp only [ite_eq_right_iff, and_imp]
    omega
  · rfl

theorem get_write_of_ge {b : Bytes n} {off len : Nat} {f : Nat → UInt8} {i : Nat} (h : off + len ≤ i) :
    (b.write off len f).get i = b.get i := by
  unfold get write
  split
  · simp only [ite_eq_right_iff, and_imp]
    omega
  · rfl

def le (b : Bytes n) (o : Nat) : Nat → Nat
  | 0 => 0
  | k + 1 => (b.get o).toNat + 256 * le b (o + 1) k

def put (b : Bytes n) (o k v : Nat) : Bytes n := b.write o k fun i => UInt8.ofNat (v / 256 ^ i)

theorem le_congr {b c : Bytes n} {o k : Nat} (h : ∀ i, o ≤ i → i < o + k → b.get i = c.get i) : b.le o k = c.le o k := by
  induction k generalizing o with
  | zero => rfl
  | succ k ih =>
    simp only [le]
    rw [h o (Nat.le_refl _) (by omega), ih fun i h1 h2 => h i (by omega) (by omega)]

theorem le_write_of_disjoint {b : Bytes n} {off len o k : Nat} {f : Nat → UInt8} (h : o + k ≤ off ∨ off + len ≤ o) :
    (b.write off len f).le o k = b.le o k := by
  apply le_congr
  intro i h1 h2
  rcases h with h | h
  · exact get_write_of_lt (by omega)
  · exact get_write_of_ge (by omega)

theorem le_put_of_disjoint {b : Bytes n} {o k o' k' v : Nat} (h : o' + k' ≤ o ∨ o + k ≤ o') :
    (b.put o k v).le o' k' = b.le o' k' :=
  le_write_of_disjoint h

private theorem le_write_digits (b : Bytes n) (o k v j : Nat) (hj : j ≤ k) (hn : o + k ≤ n) :
    (b.put o k v).le (o + (k - j)) j = v / 256 ^ (k - j) % 256 ^ j := by
  induction j with
  | zero => simp [le, Nat.mod_one]
  | succ j ih =>
    have hstep : o + (k - (j + 1)) + 1 = o + (k - j) := by omega
    have hpow : 256 ^ (k - j) = 256 ^ (k - (j + 1)) * 256 := by
      rw [← Nat.pow_succ]
      congr 1
      omega
    have hget : (b.put o k v).get (o + (k - (j + 1))) = UInt8.ofNat (v / 256 ^ (k - (j + 1))) := by
      rw [put, get_write _ _ _ _ _ (by omega), if_pos (by omega)]
      congr 3
      omega
    simp only [le]
    rw [hstep, ih (by omega), hget, hpow, ← Nat.div_div_eq_div_mul, UInt8.toNat_ofNat',
      show 256 ^ (j + 1) = 256 * 256 ^ j from Nat.pow_succ', Nat.mod_mul]

theorem le_put {b : Bytes n} {o k v : Nat} (hn : o + k ≤ n) (hv : v < 256 ^ k) : (b.put o k v).le o k = v := by
  have h := le_write_digits b o k v k (Nat.le_refl _) hn
  simp only [Nat.sub_self, Nat.add_zero, Nat.pow_zero, Nat.div_one] at h
  rw [h, Nat.mod_eq_of_lt hv]

@[simp] theorem le_zero (o k : Nat) : (zero : Bytes n).le o k = 0 := by
  induction k generalizing o with
  | zero => rfl
  | succ k ih => simp [le, ih]

end Bytes

end Xv6.Lib
