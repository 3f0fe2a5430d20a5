import Mathlib.Data.Nat.Digits.Lemmas
import Xv6.Printf.Basic

/-! Which numbers the two copies of `printf` print as they should: the kernel's `printint` has 16 characters for
    64-bit numbers, and the user's takes 32-bit numbers. -/

namespace Xv6.Printf
open Lib

/-- The digits of `n`, from the lowest on; 0 has one. -/
def lows (b n : Nat) : List Nat := if n = 0 then [0] else Nat.digits b n

def numeral (digits : List UInt8) (b : Nat) (v : Int) : List UInt8 :=
  (if v < 0 then [ch '-'] else []) ++ (lows b v.natAbs).reverse.map fun d => digits.getD d 0

variable {digits buf : List UInt8} {b n k w : Nat}

theorem lows_eq (hb : 1 < b) : lows b n = n % b :: if n / b ≠ 0 then lows b (n / b) else [] := by
  unfold lows
  by_cases hn : n = 0
  · subst hn
    rw [if_pos rfl, Nat.zero_mod, Nat.zero_div, if_neg (fun h => h rfl)]
  · rw [if_neg hn, Nat.digits_def' hb (Nat.pos_of_ne_zero hn)]
    by_cases hq : n / b = 0
    · rw [hq, Nat.digits_zero, if_neg (fun h => h rfl)]
    · rw [if_pos hq, if_neg hq]

theorem lows_length (hb : 1 < b) (hk : 0 < k) (h : n < b ^ k) : (lows b n).length ≤ k := by
  unfold lows
  split
  · exact hk
  · exact (Nat.digits_length_le_iff hb n).mpr h

theorem fill_eq (hb : 1 < b) (hk : n < 2 ^ k) (hroom : buf.length + (lows b n).length ≤ 16) :
    fill digits b (k + 1) n buf = .ok (buf ++ (lows b n).map fun d => digits.getD d 0) := by
  induction k generalizing n buf with
  | zero =>
    obtain rfl : n = 0 := by omega
    rw [lows_eq hb] at hroom ⊢
    rw [Nat.zero_div, if_neg (fun h => h rfl)] at hroom ⊢
    rw [List.length_singleton] at hroom
    rw [fill, push, if_pos (by omega), Nat.zero_div]
    rfl
  | succ k ih =>
    rw [lows_eq hb] at hroom ⊢
    have hlt : buf.length < 16 := by rw [List.length_cons] at hroom; omega
    rw [fill, push, if_pos hlt]
    change (if n / b ≠ 0 then fill digits b (k + 1) (n / b) _ else _) = _
    by_cases hq : n / b = 0
    · rw [if_neg (fun h => h hq), if_neg (fun h => h hq)]
      rfl
    · rw [if_pos hq] at hroom ⊢
      rw [if_pos hq]
      have hhalf : n / b < 2 ^ k := by
        have : n / b ≤ n / 2 := Nat.div_le_div_left hb (by decide)
        rw [Nat.pow_succ] at hk
        omega
      rw [ih hhalf, List.map_cons, List.append_assoc, List.singleton_append]
      rw [List.length_append, List.length_singleton]
      rw [List.length_cons] at hroom
      omega

/-- The number that `printint` takes its argument for. -/
def value (sign : Bool) (xx : BitVec w) : Int := if sign then xx.toInt else xx.toNat

theorem toNat_neg_of_toInt_neg {xx : BitVec w} (h : xx.toInt < 0) : (-xx).toNat = xx.toInt.natAbs := by
  have hlt := xx.isLt
  rw [BitVec.toInt_eq_toNat_cond] at h ⊢
  split at h
  · omega
  · rw [if_neg ‹_›, BitVec.toNat_neg, Nat.mod_eq_of_lt (by omega)]
    omega

theorem printint_eq {xx : BitVec w} {sign : Bool} (hb : 1 < b) (h : (numeral digits b (value sign xx)).length ≤ 16) :
    printint digits xx b sign = .ok (numeral digits b (value sign xx)) := by
  unfold printint
  unfold numeral at h ⊢
  rw [List.length_append, List.length_map, List.length_reverse] at h
  by_cases hneg : sign = true ∧ xx.toInt < 0
  · obtain ⟨rfl, hneg⟩ := hneg
    simp only [value, if_true, if_pos hneg, List.length_singleton] at h ⊢
    simp only [decide_eq_true hneg, Bool.and_self, if_true, toNat_neg_of_toInt_neg hneg]
    have hlt : xx.toInt.natAbs < 2 ^ w := by
      rw [← toNat_neg_of_toInt_neg hneg]
      exact (-xx).isLt
    rw [fill_eq hb hlt (by rw [List.length_nil]; omega)]
    change (push _ _ >>= _) = _
    rw [push, if_pos (by rw [List.nil_append, List.length_map]; omega)]
    change Except.ok (List.reverse _) = _
    rw [List.reverse_append, List.nil_append, List.map_reverse]
    rfl
  · have hval : 0 ≤ value sign xx ∧ (value sign xx).natAbs = xx.toNat := by
      unfold value
      split
      · next hs =>
        have hpos : 0 ≤ xx.toInt := Int.not_lt.mp fun hlt => hneg ⟨hs, hlt⟩
        refine ⟨hpos, ?_⟩
        have hlt := xx.isLt
        rw [BitVec.toInt_eq_toNat_cond] at hpos ⊢
        split at hpos
        · rw [if_pos ‹_›]; omega
        · omega
      · exact ⟨Int.natCast_nonneg _, Int.natAbs_natCast _⟩
    have hflag : (sign && decide (xx.toInt < 0)) = false := by
      rw [Bool.and_eq_false_iff, decide_eq_false_iff_not]
      by_cases hs : sign = true
      · exact .inr fun hlt => hneg ⟨hs, hlt⟩
      · exact .inl (Bool.eq_false_iff.mpr hs)
    rw [hval.2, if_neg (Int.not_lt.mpr hval.1), List.length_nil] at h
    rw [hval.2, if_neg (Int.not_lt.mpr hval.1)]
    simp only [hflag, Bool.false_eq_true, if_false]
    rw [fill_eq hb xx.isLt (by rw [List.length_nil]; omega)]
    change Except.ok (List.reverse _) = _
    rw [List.nil_append, List.nil_append, List.map_reverse]

theorem numeral_le {v : Int} (hb : 1 < b) (hneg : v < 0 → v.natAbs < b ^ 15) (hpos : 0 ≤ v → v.natAbs < b ^ 16) :
    (numeral digits b v).length ≤ 16 := by
  unfold numeral
  rw [List.length_append, List.length_map, List.length_reverse]
  split
  · next h =>
    have := lows_length hb (by decide) (hneg h)
    rw [List.length_singleton]
    omega
  · next h =>
    have := lows_length hb (by decide) (hpos (Int.not_lt.mp h))
    rw [List.length_nil]
    omega

inductive Conv where
  | d | ld | lld | u | lu | llu | x | lx | llx
  deriving DecidableEq, Repr

namespace Conv

def text : Conv → List UInt8
  | d => [ch 'd']
  | ld => [ch 'l', ch 'd']
  | lld => [ch 'l', ch 'l', ch 'd']
  | u => [ch 'u']
  | lu => [ch 'l', ch 'u']
  | llu => [ch 'l', ch 'l', ch 'u']
  | x => [ch 'x']
  | lx => [ch 'l', ch 'x']
  | llx => [ch 'l', ch 'l', ch 'x']

def long : Conv → Bool
  | d | u | x => false
  | _ => true

def base : Conv → Nat
  | x | lx | llx => 16
  | _ => 10

def sign : Conv → Bool
  | d | ld | lld => true
  | _ => false

/-- The value of an argument of the C type of the conversion: `int`, `unsigned int`, or one of their 64-bit kin. -/
def val (c : Conv) (arg : BitVec 64) : Int :=
  if c.long then value c.sign arg else value c.sign (arg.setWidth 32)

end Conv

/-- A piece of a format: characters that stand for themselves, or a conversion with its argument. -/
inductive Piece where
  | text (l : List UInt8)
  | conv (c : Conv) (arg : BitVec 64)

namespace Piece

def fmt : Piece → List UInt8
  | text l => l
  | conv c _ => ch '%' :: c.text

def arg : Piece → List (BitVec 64)
  | text _ => []
  | conv _ arg => [arg]

def out (digits : List UInt8) : Piece → List UInt8
  | text l => l
  | conv c arg => numeral digits c.base (c.val arg)

def Plain : Piece → Prop
  | text l => ch '%' ∉ l
  | conv _ _ => True

end Piece

variable {str : BitVec 64 → List UInt8} {l : List UInt8} {ap : List (BitVec 64)} {c : Conv} {arg : BitVec 64}

theorem decode_conv (c : Conv) (l : List UInt8) :
    decode ((c.text ++ l).headD 0) (look ((c.text ++ l).headD 0) ((c.text ++ l).drop 1))
      (look (look ((c.text ++ l).headD 0) ((c.text ++ l).drop 1)) ((c.text ++ l).drop 2)) =
      (.num c.long c.base c.sign, c.text.length - 1) := by
  cases c <;> rfl

def Right (p : Copy) (c : Conv) (arg : BitVec 64) : Prop :=
  printint p.digits (p.arg c.long arg) c.base c.sign = .ok (numeral p.digits c.base (c.val arg))

theorem right_of_value {p : Copy} (hval : value c.sign (p.arg c.long arg) = c.val arg)
    (hlen : (numeral p.digits c.base (c.val arg)).length ≤ 16) : Right p c arg := by
  have hb : 1 < c.base := by cases c <;> decide
  unfold Right
  rw [← hval] at hlen ⊢
  exact printint_eq hb hlen

theorem prints_pieces {p : Copy} (print : Nat → List UInt8 → List (BitVec 64) → Except Stop (List UInt8)) {d : Nat}
    (hd : d ≤ 2) (hnil : ∀ k, print (k + 1) [] [] = .ok [])
    (htext : ∀ l fmt ap k, ch '%' ∉ l → print (k + l.length) (l ++ fmt) ap = (do return l ++ (← print k fmt ap)))
    (hconv : ∀ c arg fmt ap k, Right p c arg → print (k + d) (ch '%' :: (c.text ++ fmt)) (arg :: ap) =
      (do return numeral p.digits c.base (c.val arg) ++ (← print k fmt ap)))
    (ps : List Piece) (fuel : Nat) (hplain : ∀ q ∈ ps, q.Plain) (hright : ∀ c arg, .conv c arg ∈ ps → Right p c arg)
    (hfuel : (ps.flatMap Piece.fmt).length < fuel) :
    print fuel (ps.flatMap Piece.fmt) (ps.flatMap Piece.arg) = .ok (ps.flatMap (Piece.out p.digits)) := by
  induction ps generalizing fuel with
  | nil =>
    obtain ⟨k, rfl⟩ := Nat.exists_eq_succ_of_ne_zero (Nat.ne_zero_of_lt hfuel)
    exact hnil k
  | cons q ps ih =>
    obtain ⟨hq, hps⟩ := List.forall_mem_cons.mp hplain
    have hrest := fun k => ih k hps fun c arg h => hright c arg (List.mem_cons_of_mem _ h)
    rw [List.flatMap_cons, List.length_append] at hfuel
    rw [List.flatMap_cons, List.flatMap_cons, List.flatMap_cons]
    cases q with
    | text l =>
      have hle : l.length ≤ fuel := Nat.le_of_lt (Nat.lt_of_le_of_lt (Nat.le_add_right ..) hfuel)
      obtain ⟨k, rfl⟩ := Nat.exists_eq_add_of_le' hle
      refine (htext l _ _ k hq).trans ?_
      rw [Piece.arg, List.nil_append, hrest k (by simp only [Piece.fmt] at hfuel; omega)]
      rfl
    | conv c arg =>
      have hc : 0 < c.text.length := by cases c <;> decide
      simp only [Piece.fmt, List.length_cons] at hfuel
      obtain ⟨k, rfl⟩ := Nat.exists_eq_add_of_le' (show d ≤ fuel by omega)
      refine (hconv c arg _ (ps.flatMap Piece.arg) k (hright c arg (List.mem_cons_self ..))).trans ?_
      rw [hrest k (by omega)]
      rfl

theorem printf_text (h : ch '%' ∉ l) (fmt : List UInt8) (k : Nat) :
    printf str (k + l.length) (l ++ fmt) ap = (do return l ++ (← printf str k fmt ap)) := by
  induction l with
  | nil =>
    rw [List.length_nil, Nat.add_zero, List.nil_append]
    exact (bind_pure _).symm
  | cons c l ih =>
    obtain ⟨hc, hl⟩ := not_or.mp (mt List.mem_cons.mpr h)
    rw [List.length_cons, ← Nat.add_assoc, List.cons_append, printf, if_pos (Ne.symm hc), ih hl]
    cases printf str k fmt ap <;> rfl

theorem printf_conv (h : Right kernel c arg) (fmt : List UInt8) (k : Nat) :
    printf str (k + 1) (ch '%' :: (c.text ++ fmt)) (arg :: ap) =
      (do return numeral kernel.digits c.base (c.val arg) ++ (← printf str k fmt ap)) := by
  have hdrop : (c.text ++ fmt).drop (1 + (c.text.length - 1)) = fmt := by cases c <;> rfl
  rw [printf, if_neg (fun hne => hne rfl)]
  simp only [decode_conv, hdrop]
  rw [if_neg (by rintro ⟨hspec, -⟩; cases hspec), convert, h]
  rfl

/-- The sign of a 32-bit argument is not extended, and a decimal numeral has at most 16 characters. -/
def Conv.FitsKernel (c : Conv) (arg : BitVec 64) : Prop :=
  match c with
  | .u | .x => c.val arg < 2 ^ 31
  | .ld | .lld => -10 ^ 15 < c.val arg ∧ c.val arg < 10 ^ 16
  | .lu | .llu => c.val arg < 10 ^ 16
  | .d | .lx | .llx => True

theorem value_signExtend {y : BitVec 32} {sign : Bool} (h : sign = true ∨ y.toNat < 2 ^ 31) :
    value sign (y.signExtend 64) = value sign y := by
  have hint : (y.signExtend 64).toInt = y.toInt := BitVec.toInt_signExtend_of_le (by decide)
  unfold value
  split
  · exact hint
  · next hs =>
    have hlt := h.resolve_left hs
    have hlt' := (y.signExtend 64).isLt
    rw [BitVec.toInt_eq_toNat_cond, BitVec.toInt_eq_toNat_cond (x := y), if_pos (show 2 * y.toNat < 2 ^ 32 by omega)] at hint
    split at hint <;> omega

theorem value_lt (sign : Bool) (xx : BitVec w) : (value sign xx).natAbs < 2 ^ w := by
  have hlt := xx.isLt
  unfold value
  split
  · rw [BitVec.toInt_eq_toNat_cond]
    split <;> omega
  · rw [Int.natAbs_natCast]
    exact hlt

theorem val_bounds (c : Conv) (arg : BitVec 64) : (c.val arg).natAbs < 2 ^ 64 ∧
    (c.long = false → (c.val arg).natAbs < 2 ^ 32) ∧ (c.sign = false → 0 ≤ c.val arg) := by
  have h32 := value_lt c.sign (arg.setWidth 32)
  have h64 := value_lt c.sign arg
  unfold Conv.val
  refine ⟨?_, fun hl => ?_, fun hs => ?_⟩
  · split
    · exact h64
    · exact lt_trans h32 (by decide)
  · rw [hl]
    exact h32
  · rw [hs]
    split <;> exact Int.natCast_nonneg _

theorem right_kernel (h : c.FitsKernel arg) : Right kernel c arg := by
  obtain ⟨h64, h32, hpos⟩ := val_bounds c arg
  refine right_of_value ?_ ?_
  · cases c with
    | d => exact value_signExtend (.inl rfl)
    | u | x => exact value_signExtend (.inr (Int.ofNat_lt.mp h))
    | ld | lld | lu | llu | lx | llx => rfl
  · have hbase : 1 < c.base := by cases c <;> decide
    refine numeral_le hbase (fun hneg => ?_) fun h0 => ?_
    · cases c with
      | d => exact lt_trans (h32 rfl) (by decide)
      | ld | lld => simp only [Conv.FitsKernel, Conv.base] at h ⊢; omega
      | u | x | lu | llu | lx | llx => exact absurd (hpos rfl) (Int.not_le.mpr hneg)
    · cases c with
      | d | u | x => exact lt_trans (h32 rfl) (by decide)
      | ld | lld | lu | llu => simp only [Conv.FitsKernel, Conv.base] at h ⊢; omega
      | lx | llx => exact lt_of_lt_of_le h64 (by decide)

theorem vprintf_text (h : ch '%' ∉ l) (fmt : List UInt8) (k : Nat) :
    vprintf str (k + l.length) false (l ++ fmt) ap = (do return l ++ (← vprintf str k false fmt ap)) := by
  induction l with
  | nil =>
    rw [List.length_nil, Nat.add_zero, List.nil_append]
    exact (bind_pure _).symm
  | cons c l ih =>
    obtain ⟨hc, hl⟩ := not_or.mp (mt List.mem_cons.mpr h)
    rw [List.length_cons, ← Nat.add_assoc, List.cons_append, vprintf, if_neg (Ne.symm hc), ih hl]
    cases vprintf str k false fmt ap <;> rfl

theorem vprintf_conv (h : Right user c arg) (fmt : List UInt8) (k : Nat) :
    vprintf str (k + 2) false (ch '%' :: (c.text ++ fmt)) (arg :: ap) =
      (do return numeral user.digits c.base (c.val arg) ++ (← vprintf str k false fmt ap)) := by
  have hdecode := decode_conv c fmt
  rw [vprintf, if_pos rfl]
  cases c <;>
  · simp only [Conv.text, List.cons_append, List.nil_append, vprintf, List.headD_cons, List.drop_succ_cons, List.drop_zero]
      at hdecode ⊢
    rw [hdecode]
    simp only [convert]
    unfold Right at h
    rw [h]
    rfl

/-- The arguments that the user's `printint` can take: those of 32 bits. -/
def Conv.FitsUser (c : Conv) (arg : BitVec 64) : Prop :=
  match c with
  | .ld | .lld => -2 ^ 31 ≤ c.val arg ∧ c.val arg < 2 ^ 31
  | .lu | .llu | .lx | .llx => c.val arg < 2 ^ 32
  | .d | .u | .x => True

theorem right_user (h : c.FitsUser arg) : Right user c arg := by
  obtain ⟨-, h32, hpos⟩ := val_bounds c arg
  have hlt : (c.val arg).natAbs < 2 ^ 32 := by
    cases c with
    | d | u | x => exact h32 rfl
    | ld | lld => simp only [Conv.FitsUser] at h; omega
    | lu | llu | lx | llx => have := hpos rfl; simp only [Conv.FitsUser] at h; omega
  have hb : (c.val arg).natAbs < c.base ^ 15 := lt_trans hlt (by cases c <;> decide)
  refine right_of_value ?_ ?_
  · have h1 := arg.isLt
    have h3 := arg.toInt_eq_toNat_cond
    have h4 := (arg.setWidth 32).toInt_eq_toNat_cond
    have h5 := arg.toNat_setWidth 32
    cases c with
    | d | u | x => rfl
    | ld | lld =>
      simp only [Conv.FitsUser, Conv.val, Conv.long, Conv.sign, value, if_true] at h
      simp only [user, Conv.val, Conv.long, Conv.sign, value, if_true]
      split at h3 <;> split at h4 <;> omega
    | lu | llu | lx | llx =>
      simp only [Conv.FitsUser, Conv.val, Conv.long, Conv.sign, value, if_true, Bool.false_eq_true, if_false] at h
      simp only [user, Conv.val, Conv.long, Conv.sign, value, if_true, Bool.false_eq_true, if_false]
      omega
  · have hbase : 1 < c.base := by cases c <;> decide
    exact numeral_le hbase (fun _ => hb) fun _ => lt_of_lt_of_le hb (Nat.pow_le_pow_right (by omega) (by decide))

/-- The loop of `atoi` in `user/ulib.c`; an `int` wraps around. -/
def atoiFrom (n : BitVec 32) : List UInt8 → BitVec 32
  | c :: s => if ch '0' ≤ c ∧ c ≤ ch '9' then atoiFrom (n * 10 + BitVec.ofNat 32 c.toNat - 48) s else n
  | [] => n

def atoi (s : List UInt8) : BitVec 32 := atoiFrom 0 s

theorem atoiFrom_digits {ds : List Nat} (hds : ∀ d ∈ ds, d < 10) (rest : List UInt8) :
    atoiFrom 0 ((ds.reverse.map fun d => user.digits.getD d 0) ++ rest) =
      atoiFrom (BitVec.ofNat 32 (Nat.ofDigits 10 ds)) rest := by
  induction ds generalizing rest with
  | nil => rfl
  | cons d ds ih =>
    have hdigit : ∀ d < 10, (user.digits.getD d 0).toNat = 48 + d ∧ ch '0' ≤ user.digits.getD d 0 ∧
        user.digits.getD d 0 ≤ ch '9' := by
      decide
    obtain ⟨hd, hrange⟩ := hdigit d (hds d List.mem_cons_self)
    rw [List.reverse_cons, List.map_append, List.append_assoc, ih fun x hx => hds x (List.mem_cons_of_mem d hx)]
    simp only [List.map_cons, List.map_nil, List.singleton_append, atoiFrom, if_pos hrange, hd]
    congr 1
    rw [Nat.ofDigits_cons]
    bv_omega

theorem ofDigits_lows (n : Nat) : Nat.ofDigits 10 (lows 10 n) = n ∧ ∀ d ∈ lows 10 n, d < 10 := by
  unfold lows
  split
  · next h => simp [h]
  · exact ⟨Nat.ofDigits_digits 10 n, fun d hd => Nat.digits_lt_base (by decide) hd⟩

theorem ofNat_value {xx : BitVec w} {sign : Bool} (h : 0 ≤ value sign xx) : BitVec.ofNat w (value sign xx).natAbs = xx := by
  have hlt := xx.isLt
  suffices hval : (value sign xx).natAbs = xx.toNat by rw [hval, BitVec.ofNat_toNat, BitVec.setWidth_eq]
  unfold value at h ⊢
  rw [BitVec.toInt_eq_toNat_cond] at h ⊢
  split_ifs at h ⊢ <;> omega

/-- What the user's `printint` prints in base 10, `atoi` reads back, but it takes a negative number for 0. -/
theorem atoi_printint (xx : BitVec 32) (sign : Bool) {rest : List UInt8}
    (hrest : ∀ c ∈ rest.head?, ¬(ch '0' ≤ c ∧ c ≤ ch '9')) :
    ∃ out, printint user.digits xx 10 sign = .ok out ∧ atoi (out ++ rest) = if value sign xx < 0 then 0 else xx := by
  have hlt : (value sign xx).natAbs < 10 ^ 15 := lt_trans (value_lt sign xx) (by decide)
  have hlen : (numeral user.digits 10 (value sign xx)).length ≤ 16 :=
    numeral_le (by decide) (fun _ => hlt) fun _ => lt_trans hlt (by decide)
  refine ⟨_, printint_eq (by decide) hlen, ?_⟩
  unfold numeral atoi
  by_cases hneg : value sign xx < 0
  · -- it stops at the sign
    rw [if_pos hneg, if_pos hneg]
    rfl
  · obtain ⟨hval, hds⟩ := ofDigits_lows (value sign xx).natAbs
    rw [if_neg hneg, if_neg hneg, List.nil_append, atoiFrom_digits hds, hval, ofNat_value (Int.not_lt.mp hneg)]
    cases rest with
    | nil => rfl
    | cons c rest => exact if_neg (hrest c rfl)

theorem atoi_printint_int_max : ∃ out, printint user.digits (2147483647 : BitVec 32) 10 true = .ok out ∧
    atoi (out ++ [ch ' ']) = 2147483647 :=
  atoi_printint _ true fun c hc => by cases hc; decide

end Xv6.Printf
