import Mathlib.Algebra.Order.Ring.Int

/-! The two copies of `memmove`, in `kernel/string.c` and `user/ulib.c`, over a memory of bytes with 64-bit addresses.
    -/

namespace Xv6.Ulib

abbrev Mem := Nat → UInt8

/-- `while(n-- > 0) *d++ = *s++;` -/
def copyUp : Nat → Nat → Nat → Mem → Mem
  | 0, _, _, m => m
  | n + 1, d, s, m => copyUp n ((d + 1) % 2 ^ 64) ((s + 1) % 2 ^ 64) (Function.update m d (m s))

/-- `while(n-- > 0) *--d = *--s;` -/
def copyDown : Nat → Nat → Nat → Mem → Mem
  | 0, _, _, m => m
  | n + 1, d, s, m =>
    let d := (d + (2 ^ 64 - 1)) % 2 ^ 64
    let s := (s + (2 ^ 64 - 1)) % 2 ^ 64
    copyDown n d s (Function.update m d (m s))

/-- `memmove` of the kernel. -/
def kmemmove (dst src : Nat) (n : UInt32) (m : Mem) : Mem :=
  if n = 0 then m
  else if src < dst ∧ (src + n.toNat) % 2 ^ 64 > dst then
    copyDown n.toNat ((dst + n.toNat) % 2 ^ 64) ((src + n.toNat) % 2 ^ 64) m
  else copyUp n.toNat dst src m

/-- `memmove` of the user library; a negative `n` moves the pointers and copies nothing. -/
def memmove (dst src : Nat) (n : Int32) (m : Mem) : Mem :=
  if src > dst then copyUp n.toInt.toNat dst src m
  else copyDown n.toInt.toNat ((dst + n.toInt) % 2 ^ 64).toNat ((src + n.toInt) % 2 ^ 64).toNat m

variable {m m' : Mem} {d s n : Nat}

/-- `m'` has the `n` bytes at `s` of `m` at `d`, and is `m` elsewhere. -/
structure Moved (d s n : Nat) (m m' : Mem) : Prop where
  inside : ∀ i < n, m' (d + i) = m (s + i)
  outside : ∀ a, a < d ∨ d + n ≤ a → m' a = m a

theorem moved_copyUp (hd : d + n < 2 ^ 64) (hs : s + n < 2 ^ 64) (h : d ≤ s ∨ s + n ≤ d) :
    Moved d s n m (copyUp n d s m) := by
  induction n generalizing d s m with
  | zero => exact ⟨fun i hi => absurd hi (Nat.not_lt_zero i), fun _ _ => rfl⟩
  | succ n ih =>
    rw [copyUp, Nat.mod_eq_of_lt (show d + 1 < 2 ^ 64 by omega), Nat.mod_eq_of_lt (show s + 1 < 2 ^ 64 by omega)]
    obtain ⟨hin, hout⟩ := ih (m := Function.update m d (m s)) (show d + 1 + n < 2 ^ 64 by omega)
      (show s + 1 + n < 2 ^ 64 by omega) (by omega)
    refine ⟨fun i hi => ?_, fun a ha => ?_⟩
    · cases i with
      | zero => exact (hout d (by omega)).trans (Function.update_self ..)
      | succ i =>
        have := hin i (by omega)
        rw [show d + (i + 1) = d + 1 + i by omega, this, Function.update_of_ne (by omega)]
        congr 1
        omega
    · rw [hout a (by omega), Function.update_of_ne (by omega)]

theorem moved_copyDown (hd : d + n < 2 ^ 64) (hs : s + n < 2 ^ 64) (h : s ≤ d ∨ d + n ≤ s) :
    Moved d s n m (copyDown n (d + n) (s + n) m) := by
  induction n generalizing m with
  | zero => exact ⟨fun i hi => absurd hi (Nat.not_lt_zero i), fun _ _ => rfl⟩
  | succ n ih =>
    have hd' : (d + (n + 1) + (2 ^ 64 - 1)) % 2 ^ 64 = d + n := by omega
    have hs' : (s + (n + 1) + (2 ^ 64 - 1)) % 2 ^ 64 = s + n := by omega
    rw [copyDown, hd', hs']
    obtain ⟨hin, hout⟩ := ih (m := Function.update m (d + n) (m (s + n))) (by omega) (by omega) (by omega)
    refine ⟨fun i hi => ?_, fun a ha => ?_⟩
    · rcases Nat.lt_or_eq_of_le (Nat.le_of_lt_succ hi) with hlt | rfl
      · rw [hin i hlt, Function.update_of_ne (by omega)]
      · rw [hout (d + i) (by omega), Function.update_self]
    · rw [hout a (by omega), Function.update_of_ne (by omega)]

theorem Moved.unique {m'' : Mem} (h : Moved d s n m m') (h' : Moved d s n m m'') : m' = m'' := by
  funext a
  by_cases ha : d ≤ a ∧ a < d + n
  · obtain ⟨i, rfl⟩ := Nat.exists_eq_add_of_le ha.1
    rw [h.inside i (by omega), h'.inside i (by omega)]
  · rw [h.outside a (by omega), h'.outside a (by omega)]

theorem moved_kmemmove {n : UInt32} (hd : d + n.toNat < 2 ^ 64) (hs : s + n.toNat < 2 ^ 64) :
    Moved d s n.toNat m (kmemmove d s n m) := by
  unfold kmemmove
  rw [Nat.mod_eq_of_lt hd, Nat.mod_eq_of_lt hs]
  split
  · next h0 =>
    rw [h0]
    exact ⟨fun i hi => absurd hi (Nat.not_lt_zero i), fun _ _ => rfl⟩
  · split
    · exact moved_copyDown hd hs (by omega)
    · exact moved_copyUp hd hs (by omega)

theorem moved_memmove {n : Int32} (hd : d + n.toInt.toNat < 2 ^ 64) (hs : s + n.toInt.toNat < 2 ^ 64) :
    Moved d s n.toInt.toNat m (memmove d s n m) := by
  unfold memmove
  split
  · exact moved_copyUp hd hs (by omega)
  · rcases lt_or_ge n.toInt 0 with hneg | hpos
    · rw [Int.toNat_of_nonpos (Int.le_of_lt hneg)]
      exact ⟨fun i hi => absurd hi (Nat.not_lt_zero i), fun _ _ => rfl⟩
    · have hd' : (((d : Int) + n.toInt) % 2 ^ 64).toNat = d + n.toInt.toNat := by omega
      have hs' : (((s : Int) + n.toInt) % 2 ^ 64).toNat = s + n.toInt.toNat := by omega
      rw [hd', hs']
      exact moved_copyDown hd hs (by omega)

/-- Both copies move the bytes as they were before the call, wherever the ranges lie, if no pointer wraps around. -/
theorem memmove_moves (m : Mem) (dst src : Nat) :
    (∀ n : UInt32, dst + n.toNat < 2 ^ 64 → src + n.toNat < 2 ^ 64 → Moved dst src n.toNat m (kmemmove dst src n m)) ∧
    (∀ n : Int32, dst + n.toInt.toNat < 2 ^ 64 → src + n.toInt.toNat < 2 ^ 64 →
      Moved dst src n.toInt.toNat m (memmove dst src n m)) ∧
    ∀ (n : UInt32) (n' : Int32), (n.toNat : Int) = n'.toInt → dst + n.toNat < 2 ^ 64 → src + n.toNat < 2 ^ 64 →
      kmemmove dst src n m = memmove dst src n' m := by
  refine ⟨fun n hd hs => moved_kmemmove hd hs, fun n hd hs => moved_memmove hd hs, fun n n' hn hd hs => ?_⟩
  have hlen : n'.toInt.toNat = n.toNat := by omega
  have huser : Moved dst src n.toNat m (memmove dst src n' m) := by
    rw [← hlen] at hd hs ⊢
    exact moved_memmove hd hs
  exact (moved_kmemmove hd hs).unique huser

theorem memmove_moves_up : memmove 101 100 3 (fun a => a.toUInt8) 103 = 102 ∧
    kmemmove 101 100 3 (fun a => a.toUInt8) = memmove 101 100 3 (fun a => a.toUInt8) := by
  obtain ⟨-, huser, hagree⟩ := memmove_moves (fun a => a.toUInt8) 101 100
  exact ⟨(huser 3 (by decide) (by decide)).inside 2 (by decide), hagree 3 3 (by decide) (by decide) (by decide)⟩

end Xv6.Ulib
