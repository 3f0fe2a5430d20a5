import Mathlib.Data.Nat.Bitwise
import Xv6.Param

/-! Page-table entries and virtual addresses of Sv39 (`kernel/riscv.h`, `kernel/memlayout.h`). A C `uint64` is a
    natural number below 2^64. -/

namespace Xv6

def PGSIZE : Nat := 4096
def MAXVA : Nat := 2 ^ (9 + 9 + 9 + 12 - 1)
def KERNBASE : Nat := 0x80000000
def PHYSTOP : Nat := KERNBASE + 128 * 1024 * 1024
def TRAMPOLINE : Nat := MAXVA - PGSIZE
def TRAPFRAME : Nat := TRAMPOLINE - PGSIZE

theorem KERNBASE_eq : KERNBASE = 2147483648 := rfl
theorem PHYSTOP_eq : PHYSTOP = 2281701376 := rfl

def PTE_V : Nat := 1
def PTE_R : Nat := 2
def PTE_W : Nat := 4
def PTE_X : Nat := 8
def PTE_U : Nat := 16

def pgRoundUp (sz : Nat) : Nat := (sz + PGSIZE - 1) % 2 ^ 64 / PGSIZE * PGSIZE

def pgRoundDown (a : Nat) : Nat := a / PGSIZE * PGSIZE

def pa2pte (pa : Nat) : Nat := (pa >>> 12) <<< 10 % 2 ^ 64

def pte2pa (pte : Nat) : Nat := (pte >>> 10) <<< 12 % 2 ^ 64

def pteFlags (pte : Nat) : Nat := pte &&& 0x3FF

def px (level va : Nat) : Nat := (va >>> (12 + 9 * level)) &&& 0x1FF

/-- Some of the flags `f` are set in a page-table entry. -/
def has (pte f : Nat) : Bool := pte &&& f != 0

theorem px_eq (level va : Nat) : px level va = va / 2 ^ (12 + 9 * level) % 512 := by
  unfold px
  rw [show (0x1FF : Nat) = 2 ^ 9 - 1 from rfl, Nat.and_two_pow_sub_one_eq_mod, Nat.shiftRight_eq_div_pow]

section
variable {pa f g : Nat}

theorem pa2pte_eq (h : pa < 2 ^ 56) : pa2pte pa = (pa / 4096) <<< 10 := by
  unfold pa2pte
  rw [Nat.shiftRight_eq_div_pow, Nat.shiftLeft_eq]
  exact Nat.mod_eq_of_lt (by omega)

theorem pa2pte_or_lt (h : pa < 2 ^ 56) (hf : f < 1024) : pa2pte pa ||| f < 2 ^ 64 := by
  refine Nat.or_lt_two_pow ?_ (by omega)
  rw [pa2pte_eq h, Nat.shiftLeft_eq]
  omega

theorem pte2pa_or (h : pa < 2 ^ 56) (hal : pa % 4096 = 0) (hf : f < 1024) : pte2pa (pa2pte pa ||| f) = pa := by
  unfold pte2pa
  have hz : f >>> 10 = 0 := by
    rw [Nat.shiftRight_eq_div_pow]
    exact Nat.div_eq_of_lt hf
  rw [pa2pte_eq h, Nat.shiftRight_or_distrib, Nat.shiftLeft_shiftRight, hz, Nat.or_zero, Nat.shiftLeft_eq]
  omega

theorem pa2pte_or_and (h : pa < 2 ^ 56) (hg : g < 1024) : (pa2pte pa ||| f) &&& g = f &&& g := by
  have hz : pa2pte pa &&& g = 0 := by
    apply Nat.eq_of_testBit_eq
    intro i
    rw [pa2pte_eq h, Nat.testBit_and, Nat.testBit_shiftLeft, Nat.zero_testBit]
    by_cases hi : 10 ≤ i
    · rw [Nat.testBit_lt_two_pow (Nat.lt_of_lt_of_le hg (Nat.pow_le_pow_right (by omega : 2 > 0) hi)), Bool.and_false]
    · simp [hi]
  rw [Nat.and_or_distrib_right, hz, Nat.zero_or]

theorem has_or (h : pa < 2 ^ 56) (hg : g < 1024) : has (pa2pte pa ||| f) g = has f g := by
  unfold has
  rw [pa2pte_or_and h hg]

theorem pteFlags_or (h : pa < 2 ^ 56) (hf : f < 1024) : pteFlags (pa2pte pa ||| f) = f := by
  unfold pteFlags
  rw [pa2pte_or_and h (by decide), show (0x3FF : Nat) = 2 ^ 10 - 1 from rfl, Nat.and_two_pow_sub_one_eq_mod]
  exact Nat.mod_eq_of_lt hf

end

theorem has_union (a b g : Nat) : has (a ||| b) g = (has a g || has b g) := by
  rw [Bool.eq_iff_iff]
  simp only [has, Nat.and_or_distrib_right, bne_iff_ne, ne_eq, Nat.or_eq_zero_iff, Bool.or_eq_true]
  exact not_and_or

@[simp] theorem has_zero (f : Nat) : has 0 f = false := by simp [has]

end Xv6
