import Xv6.Lib.Cstring

/-! The matcher of `user/grep.c`. Pointers are indices into NUL-terminated texts; the functions take fuel, and a read
    behind a NUL ends the run. -/

namespace Xv6.Grep
open Lib

inductive Stop where
  | overrun
  | fuel
  deriving DecidableEq, Repr

def read (s : List UInt8) (i : Nat) : Except Stop UInt8 :=
  match byteAt s i with
  | some c => .ok c
  | none => .error .overrun

section
variable (re text : List UInt8)

mutual

/-- `matchhere(re + i, text + j)` -/
def matchhere : Nat → Nat → Nat → Except Stop Bool
  | 0, _, _ => .error .fuel
  | k + 1, i, j => do
    let r0 ← read re i
    if r0 = 0 then return true
    else
      let r1 ← read re (i + 1)
      if r1 = ch '*' then matchstar k r0 (i + 2) j
      else if r0 = ch '$' ∧ r1 = 0 then return (← read text j) = 0
      else
        let t ← read text j
        if t ≠ 0 ∧ (r0 = ch '.' ∨ r0 = t) then matchhere k (i + 1) (j + 1) else return false

/-- `matchstar(c, re + i, text + j)`, one round of its loop. -/
def matchstar : Nat → UInt8 → Nat → Nat → Except Stop Bool
  | 0, _, _, _ => .error .fuel
  | k + 1, c, i, j => do
    if ← matchhere k i j then return true
    else
      let t ← read text j
      if t ≠ 0 ∧ (t = c ∨ c = ch '.') then matchstar k c i (j + 1) else return false

end

def matchFrom : Nat → Nat → Except Stop Bool
  | 0, _ => .error .fuel
  | k + 1, j => do
    if ← matchhere re text k 0 j then return true
    else
      let t ← read text j
      if t ≠ 0 then matchFrom k (j + 1) else return false

/-- `match(re, text)` -/
def «match» (fuel : Nat) : Except Stop Bool := do
  let r0 ← read re 0
  if r0 = ch '^' then matchhere re text fuel 1 0 else matchFrom re text fuel 0

end

/-- A character, or `.`, that stands for one character or for any number of them. -/
structure Item where
  c : UInt8
  star : Bool
  deriving DecidableEq, Repr

def Fits (c t : UInt8) : Prop := c = ch '.' ∨ c = t
  deriving Decidable

/-- The items of a pattern, and whether it ends with a `$` of its own. -/
def items : List UInt8 → List Item × Bool
  | [] => ([], false)
  | [c] => if c = ch '$' then ([], true) else ([⟨c, false⟩], false)
  | c :: d :: l =>
    if d = ch '*' then (⟨c, true⟩ :: (items l).1, (items l).2)
    else (⟨c, false⟩ :: (items (d :: l)).1, (items (d :: l)).2)

def Lang : List Item → List UInt8 → Prop
  | [], w => w = []
  | ⟨c, false⟩ :: is, w => ∃ t v, w = t :: v ∧ Fits c t ∧ Lang is v
  | ⟨c, true⟩ :: is, w => ∃ u v, w = u ++ v ∧ (∀ t ∈ u, Fits c t) ∧ Lang is v

/-- Some part of the text is in the language of the pattern, at the start after a `^` and at the end before a `$`. -/
def Matches (re text : List UInt8) : Prop :=
  let anchored := re.head? = some (ch '^')
  let (is, dollar) := items (if anchored then re.tail else re)
  ∃ pre w post, text = pre ++ w ++ post ∧ Lang is w ∧ (anchored → pre = []) ∧ (dollar = true → post = [])

variable {re text t : List UInt8} {is : List Item} {dollar : Bool} {c x : UInt8} {i j k fuel : Nat}

def Here (p : List Item × Bool) (t : List UInt8) : Prop :=
  ∃ w post, t = w ++ post ∧ Lang p.1 w ∧ (p.2 = true → post = [])

/-- The text starts with any number of characters that `c` stands for, and a word of the language. -/
def Starred (c : UInt8) (p : List Item × Bool) (t : List UInt8) : Prop :=
  ∃ u v, t = u ++ v ∧ (∀ x ∈ u, Fits c x) ∧ Here p v

theorem here_nil : Here ([], dollar) t ↔ (dollar = true → t = []) := by
  constructor
  · rintro ⟨w, post, rfl, rfl, hd⟩ h
    exact hd h
  · exact fun h => ⟨[], t, rfl, rfl, h⟩

theorem here_single : Here (⟨c, false⟩ :: is, dollar) t ↔ ∃ x v, t = x :: v ∧ Fits c x ∧ Here (is, dollar) v := by
  constructor
  · rintro ⟨w, post, rfl, ⟨x, v, rfl, hx, hv⟩, hd⟩
    exact ⟨x, v ++ post, rfl, hx, v, post, rfl, hv, hd⟩
  · rintro ⟨x, v, rfl, hx, w, post, rfl, hw, hd⟩
    exact ⟨x :: w, post, rfl, ⟨x, w, rfl, hx, hw⟩, hd⟩

theorem here_star : Here (⟨c, true⟩ :: is, dollar) t ↔ Starred c (is, dollar) t := by
  constructor
  · rintro ⟨w, post, rfl, ⟨u, v, rfl, hu, hv⟩, hd⟩
    exact ⟨u, v ++ post, List.append_assoc .., hu, v, post, rfl, hv, hd⟩
  · rintro ⟨u, v, rfl, hu, w, post, rfl, hw, hd⟩
    exact ⟨u ++ w, post, (List.append_assoc ..).symm, ⟨u, w, rfl, hu, hw⟩, hd⟩

theorem starred_iff {p : List Item × Bool} :
    Starred c p t ↔ Here p t ∨ ∃ x v, t = x :: v ∧ Fits c x ∧ Starred c p v := by
  constructor
  · rintro ⟨u, v, rfl, hu, hv⟩
    cases u with
    | nil => exact .inl hv
    | cons x u =>
      obtain ⟨hx, hu⟩ := List.forall_mem_cons.mp hu
      exact .inr ⟨x, u ++ v, rfl, hx, u, v, rfl, hu, hv⟩
  · rintro (h | ⟨x, v, rfl, hx, u, v, rfl, hu, hv⟩)
    · exact ⟨[], t, rfl, fun x hx => (List.not_mem_nil hx).elim, h⟩
    · exact ⟨x :: u, v, rfl, List.forall_mem_cons.mpr ⟨hx, hu⟩, hv⟩

/-! ### The functions -/

theorem read_of_drop (h : text.drop j = x :: t) : read text j = .ok x := by
  unfold read
  rw [byteAt_of_drop h]

theorem read_of_nil (hj : j ≤ text.length) (h : text.drop j = []) : read text j = .ok 0 := by
  unfold read
  rw [eq_length_of_drop hj h, byteAt_length]

theorem ne_zero_of_drop (h0 : 0 ∉ text) (h : text.drop j = x :: t) : x ≠ 0 := by
  rintro rfl
  exact h0 (List.mem_of_mem_drop (by rw [h]; exact List.mem_cons_self ..))

def Decides (r : Except Stop Bool) (P : Prop) : Prop := ∃ b, r = .ok b ∧ (b = true ↔ P)

theorem Decides.congr {r : Except Stop Bool} {P Q : Prop} (h : Decides r P) (hpq : P ↔ Q) : Decides r Q := by
  obtain ⟨b, hr, hb⟩ := h
  exact ⟨b, hr, hb.trans hpq⟩

def HereRight (re text : List UInt8) (k : Nat) : Prop :=
  ∀ i j, i ≤ re.length → j ≤ text.length → 2 * (re.length - i) + (text.length - j) + 1 ≤ k →
    Decides (matchhere re text k i j) (Here (items (re.drop i)) (text.drop j))

def StarRight (re text : List UInt8) (k : Nat) : Prop :=
  ∀ c i j, i ≤ re.length → j ≤ text.length → 2 * (re.length - i) + (text.length - j) + 2 ≤ k →
    Decides (matchstar re text k c i j) (Starred c (items (re.drop i)) (text.drop j))

theorem starRight_succ (ht : 0 ∉ text) (hhere : HereRight re text k) (hstar : StarRight re text k) :
    StarRight re text (k + 1) := by
  intro c i j hi hj hk
  obtain ⟨b, hb, hbp⟩ := hhere i j hi hj (by omega)
  unfold Decides
  rw [matchstar, hb, ok_bind]
  cases b with
  | true => exact ⟨true, rfl, iff_of_true rfl (starred_iff.mpr (.inl (hbp.mp rfl)))⟩
  | false =>
    have hno : ¬ Here (items (re.drop i)) (text.drop j) := fun h => Bool.false_ne_true (hbp.mpr h)
    simp only [Bool.false_eq_true, if_false]
    cases hd : text.drop j with
    | nil =>
      rw [read_of_nil hj hd, ok_bind, if_neg fun h => h.1 rfl]
      refine ⟨false, rfl, iff_of_false Bool.false_ne_true fun h => ?_⟩
      rcases starred_iff.mp h with h | ⟨x, v, he, -⟩
      · exact hno (by rw [hd]; exact h)
      · cases he
    | cons x t =>
      have hlt := lt_of_drop_eq_cons hd
      rw [read_of_drop hd, ok_bind]
      by_cases hx : Fits c x
      · rw [if_pos ⟨ne_zero_of_drop ht hd, hx.symm.imp_left Eq.symm⟩]
        refine (hstar c i (j + 1) hi hlt (by omega)).congr ?_
        rw [drop_succ_of_drop hd, starred_iff (t := x :: t)]
        refine ⟨fun h => .inr ⟨x, t, rfl, hx, h⟩, fun h => ?_⟩
        rcases h with h | ⟨y, v, he, -, h⟩
        · exact absurd (by rw [hd]; exact h) hno
        · rw [List.cons.injEq] at he
          rw [he.2]
          exact h
      · rw [if_neg fun h => hx (h.2.symm.imp_right Eq.symm)]
        refine ⟨false, rfl, iff_of_false Bool.false_ne_true fun h => ?_⟩
        rcases starred_iff.mp h with h | ⟨y, v, he, hy, -⟩
        · exact hno (by rw [hd]; exact h)
        · rw [List.cons.injEq] at he
          exact hx (he.1 ▸ hy)

theorem here_plain (ht : 0 ∉ text) (hhere : HereRight re text k) {r : List UInt8} (hr : re.drop i = c :: r)
    (hj : j ≤ text.length) (hk : 2 * (re.length - i) + (text.length - j) + 1 ≤ k + 1)
    (hitems : items (c :: r) = (⟨c, false⟩ :: (items r).1, (items r).2)) :
    Decides (do
      let t ← read text j
      if t ≠ 0 ∧ (c = ch '.' ∨ c = t) then matchhere re text k (i + 1) (j + 1) else return false)
      (Here (items (c :: r)) (text.drop j)) := by
  have hlt := lt_of_drop_eq_cons hr
  rw [hitems, here_single]
  cases hd : text.drop j with
  | nil =>
    rw [read_of_nil hj hd, ok_bind, if_neg fun h => h.1 rfl]
    exact ⟨false, rfl, iff_of_false Bool.false_ne_true fun ⟨_, _, he, _⟩ => nomatch he⟩
  | cons x t =>
    have hlt' := lt_of_drop_eq_cons hd
    rw [read_of_drop hd, ok_bind]
    by_cases hx : Fits c x
    · rw [if_pos ⟨ne_zero_of_drop ht hd, hx⟩]
      refine (hhere (i + 1) (j + 1) hlt hlt' (by omega)).congr ?_
      rw [drop_succ_of_drop hd, drop_succ_of_drop hr]
      refine ⟨fun h => ⟨x, t, rfl, hx, h⟩, ?_⟩
      rintro ⟨y, v, he, -, h⟩
      rw [List.cons.injEq] at he
      rw [he.2]
      exact h
    · rw [if_neg fun h => hx h.2]
      refine ⟨false, rfl, iff_of_false Bool.false_ne_true fun h => ?_⟩
      obtain ⟨y, v, he, hy, -⟩ := h
      rw [List.cons.injEq] at he
      exact hx (he.1 ▸ hy)

theorem hereRight_succ (hre : 0 ∉ re) (ht : 0 ∉ text) (hhere : HereRight re text k) (hstar : StarRight re text k) :
    HereRight re text (k + 1) := by
  intro i j hi hj hk
  rw [matchhere]
  cases hr : re.drop i with
  | nil =>
    rw [read_of_nil hi hr, ok_bind, if_pos rfl]
    exact ⟨true, rfl, iff_of_true rfl (here_nil.mpr nofun)⟩
  | cons c r =>
    have hlt := lt_of_drop_eq_cons hr
    have hr' := drop_succ_of_drop hr
    rw [read_of_drop hr, ok_bind, if_neg (ne_zero_of_drop hre hr)]
    cases r with
    | nil =>
      -- the last character of the pattern
      rw [read_of_nil hlt hr', ok_bind, if_neg (by decide)]
      by_cases hc : c = ch '$'
      · have hitems : items [c] = ([], true) := by rw [items, if_pos hc]
        rw [if_pos ⟨hc, rfl⟩, hitems, here_nil]
        cases hd : text.drop j with
        | nil =>
          rw [read_of_nil hj hd, ok_bind]
          exact ⟨true, rfl, iff_of_true rfl fun _ => rfl⟩
        | cons x t =>
          rw [read_of_drop hd, ok_bind]
          refine ⟨false, ?_, iff_of_false Bool.false_ne_true fun h => nomatch h rfl⟩
          rw [decide_eq_false (ne_zero_of_drop ht hd)]
          rfl
      · rw [if_neg fun h => hc h.1]
        refine here_plain ht hhere hr hj hk ?_
        simp only [items, if_neg hc]
    | cons d r =>
      rw [read_of_drop hr', ok_bind]
      by_cases hd : d = ch '*'
      · have hlt' := lt_of_drop_eq_cons hr'
        rw [if_pos hd]
        refine (hstar c (i + 2) j hlt' hj (by omega)).congr ?_
        rw [drop_succ_of_drop hr', items, if_pos hd, here_star]
      · rw [if_neg hd, if_neg fun h => ne_zero_of_drop hre hr' h.2]
        refine here_plain ht hhere hr hj hk ?_
        rw [items, if_neg hd]

theorem right (hre : 0 ∉ re) (ht : 0 ∉ text) (k : Nat) : HereRight re text k ∧ StarRight re text k := by
  induction k with
  | zero => exact ⟨fun i j _ _ hk => by omega, fun c i j _ _ hk => by omega⟩
  | succ k ih => exact ⟨hereRight_succ hre ht ih.1 ih.2, starRight_succ ht ih.1 ih.2⟩

theorem matchFrom_right (hre : 0 ∉ re) (ht : 0 ∉ text) (hj : j ≤ text.length)
    (hk : 2 * re.length + (text.length - j) + 2 ≤ k) :
    Decides (matchFrom re text k j) (∃ pre t, text.drop j = pre ++ t ∧ Here (items re) t) := by
  induction k generalizing j with
  | zero => omega
  | succ k ih =>
    obtain ⟨b, hb, hbp⟩ := (right hre ht k).1 0 j (Nat.zero_le _) hj (by omega)
    rw [List.drop_zero] at hbp
    unfold Decides
    rw [matchFrom, hb, ok_bind]
    cases b with
    | true => exact ⟨true, rfl, iff_of_true rfl ⟨[], text.drop j, rfl, hbp.mp rfl⟩⟩
    | false =>
      have hno : ¬ Here (items re) (text.drop j) := fun h => Bool.false_ne_true (hbp.mpr h)
      simp only [Bool.false_eq_true, if_false]
      cases hd : text.drop j with
      | nil =>
        rw [read_of_nil hj hd, ok_bind, if_neg fun h => h rfl]
        refine ⟨false, rfl, iff_of_false Bool.false_ne_true fun ⟨pre, t, he, h⟩ => hno ?_⟩
        rw [hd]
        rwa [(List.append_eq_nil_iff.mp he.symm).2] at h
      | cons x t =>
        have hlt := lt_of_drop_eq_cons hd
        rw [read_of_drop hd, ok_bind, if_pos (ne_zero_of_drop ht hd)]
        refine (ih hlt (by omega)).congr ?_
        rw [drop_succ_of_drop hd]
        constructor
        · rintro ⟨pre, v, rfl, h⟩
          exact ⟨x :: pre, v, rfl, h⟩
        · rintro ⟨pre, v, he, h⟩
          cases pre with
          | nil => exact absurd (by rw [hd, he]; exact h) hno
          | cons y pre =>
            rw [List.cons_append, List.cons.injEq] at he
            exact ⟨pre, v, he.2, h⟩

/-- `match` returns, without reading behind a NUL, and tells whether the pattern matches the text. -/
theorem match_decides (hre : 0 ∉ re) (ht : 0 ∉ text) (hfuel : 2 * re.length + text.length + 2 ≤ fuel) :
    Decides («match» re text fuel) (Matches re text) := by
  have hplain : re.head? ≠ some (ch '^') →
      Decides (matchFrom re text fuel 0) (Matches re text) := fun hh => by
    refine (matchFrom_right hre ht (Nat.zero_le _) (by omega)).congr ?_
    simp only [Matches, hh, if_false, List.drop_zero, false_implies, true_and]
    constructor
    · rintro ⟨pre, t, rfl, w, post, rfl, hw, hd⟩
      exact ⟨pre, w, post, (List.append_assoc ..).symm, hw, hd⟩
    · rintro ⟨pre, w, post, rfl, hw, hd⟩
      exact ⟨pre, w ++ post, List.append_assoc .., w, post, rfl, hw, hd⟩
  unfold «match»
  cases re with
  | nil =>
    rw [read_of_nil (Nat.zero_le _) rfl, ok_bind, if_neg (by decide)]
    exact hplain nofun
  | cons c re =>
    have hread : read (c :: re) 0 = .ok c := read_of_drop rfl
    rw [hread, ok_bind]
    by_cases hc : c = ch '^'
    · rw [if_pos hc]
      refine ((right hre ht fuel).1 1 0 (by rw [List.length_cons]; omega) (Nat.zero_le _) (by
        rw [List.length_cons] at hfuel ⊢
        omega)).congr ?_
      simp only [Matches, hc, List.head?_cons, if_true, List.drop_zero, List.drop_succ_cons, List.tail_cons, true_implies]
      constructor
      · rintro ⟨w, post, he, hw, hd⟩
        exact ⟨[], w, post, he, hw, rfl, hd⟩
      · rintro ⟨pre, w, post, he, hw, rfl, hd⟩
        exact ⟨w, post, he, hw, hd⟩
    · rw [if_neg hc]
      exact hplain fun he => hc (Option.some.inj he)

theorem match_decides_star : «match» (['b', '*', 'c', '$'].map ch) (['a', 'b', 'b', 'c'].map ch) 20 = .ok true ∧
    Matches (['b', '*', 'c', '$'].map ch) (['a', 'b', 'b', 'c'].map ch) := by
  have hrun : «match» (['b', '*', 'c', '$'].map ch) (['a', 'b', 'b', 'c'].map ch) 20 = .ok true := by decide +kernel
  have hre : 0 ∉ ['b', '*', 'c', '$'].map ch := by decide
  have ht : 0 ∉ ['a', 'b', 'b', 'c'].map ch := by decide
  obtain ⟨b, hb, hiff⟩ := match_decides hre ht (show _ ≤ 20 by decide)
  rw [hrun, Except.ok.injEq] at hb
  exact ⟨hrun, hiff.mp hb.symm⟩

end Xv6.Grep
