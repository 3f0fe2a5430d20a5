import Xv6.Grep.Match
import Xv6.Ulib.Memmove

/-! The loop of `grep` over a buffer of 1024 bytes. When a line does not fit, `read` is asked for no bytes, and `grep`
    takes its answer for the end of the input. -/

namespace Xv6.Grep
open Lib Ulib

def SIZE : Nat := 1024

def NL : UInt8 := ch '\n'

/-- `strchr(buf + p, c)`, where `k` bytes of the buffer are left. -/
def strchr (buf : Mem) (c : UInt8) : Nat → Nat → Except Stop (Option Nat)
  | 0, _ => .error .overrun
  | k + 1, p => if buf p = 0 then .ok none else if buf p = c then .ok (some p) else strchr buf c k (p + 1)

def bytes (buf : Mem) (p n : Nat) : List UInt8 := (List.range n).map fun i => buf (p + i)

def cstr (buf : Mem) (p : Nat) : List UInt8 := (bytes buf p (SIZE - p)).takeWhile (· ≠ 0)

/-- `match`, with fuel for it. -/
def run (re text : List UInt8) : Except Stop Bool := «match» re text (2 * re.length + text.length + 2)

/-- The loop over the lines in the buffer: `p`, the buffer, and what has been written. -/
def grepLines (re : List UInt8) : Nat → Nat → Mem → List UInt8 → Except Stop (Nat × Mem × List UInt8)
  | 0, _, _, _ => .error .fuel
  | k + 1, p, buf, out => do
    match ← strchr buf NL (SIZE - p) p with
    | none => return (p, buf, out)
    | some q =>
      let buf := Function.update buf q 0
      if ← run re (cstr buf p) then
        let buf := Function.update buf q NL
        grepLines re k (q + 1) buf (out ++ bytes buf p (q + 1 - p))
      else grepLines re k (q + 1) buf out

/-- What `read` of at most `want` bytes brings, of which it would like to bring `cut`, and what it leaves. -/
def fetch (cut want : Nat) (input : List UInt8) : List UInt8 × List UInt8 := input.splitAt (min (max 1 cut) want)

def store (buf : Mem) (a : Nat) (l : List UInt8) : Mem := fun i =>
  if a ≤ i ∧ i < a + l.length then l.getD (i - a) 0 else buf i

/-- `grep(pattern, fd)`: what has been written, and what is left of the input. -/
def grep (re : List UInt8) (cut : Nat → Nat) : Nat → Nat → Mem → Nat → List UInt8 → List UInt8 →
    Except Stop (List UInt8 × List UInt8)
  | 0, _, _, _, _, _ => .error .fuel
  | k + 1, r, buf, m, input, out =>
    let (piece, rest) := fetch (cut r) (SIZE - m - 1) input
    if piece.length > 0 then
      let buf := store buf m piece
      let m := m + piece.length
      if m < SIZE then do
        let (p, buf, out) ← grepLines re (SIZE + 1) 0 (Function.update buf m 0) out
        if m > 0 then grep re cut k (r + 1) (memmove 0 p (Int32.ofNat (m - p)) buf) (m - p) rest out
        else grep re cut k (r + 1) buf m rest out
      else .error .overrun
    else .ok (out, input)

/-- The lines of a text, less their newlines, and what comes after the last newline. -/
def lines : List UInt8 → List (List UInt8) × List UInt8
  | [] => ([], [])
  | c :: l =>
    if c = NL then ([] :: (lines l).1, (lines l).2)
    else
      match lines l with
      | ([], rest) => ([], c :: rest)
      | (x :: xs, rest) => ((c :: x) :: xs, rest)

/-- What `grep` should write: the lines that match, with their newlines. -/
def found (re : List UInt8) (ls : List (List UInt8)) : List UInt8 :=
  (ls.filter fun l => run re l = .ok true).flatMap (· ++ [NL])

variable {re l d input out : List UInt8} {buf : Mem} {p q k r : Nat} {cut : Nat → Nat} {b : Bool}

theorem lines_cons (h : NL ∉ l) : lines (l ++ NL :: d) = (l :: (lines d).1, (lines d).2) := by
  induction l with
  | nil => rw [List.nil_append, lines, if_pos rfl]
  | cons c l ih =>
    obtain ⟨hc, hl⟩ := not_or.mp (mt List.mem_cons.mpr h)
    rw [List.cons_append, lines, if_neg (Ne.symm hc), ih hl]

theorem lines_none (h : NL ∉ l) : lines l = ([], l) := by
  induction l with
  | nil => rfl
  | cons c l ih =>
    obtain ⟨hc, hl⟩ := not_or.mp (mt List.mem_cons.mpr h)
    rw [lines, if_neg (Ne.symm hc), ih hl]

theorem line_cases (d : List UInt8) : NL ∉ d ∨ ∃ l e, d = l ++ NL :: e ∧ NL ∉ l := by
  by_cases h : NL ∈ d
  · exact .inr (List.eq_append_cons_of_mem h)
  · exact .inl h

theorem lines_append (a b : List UInt8) : lines (a ++ b) =
    ((lines a).1 ++ (lines ((lines a).2 ++ b)).1, (lines ((lines a).2 ++ b)).2) := by
  induction hn : a.length using Nat.strong_induction_on generalizing a with
  | _ n ih =>
    subst hn
    rcases line_cases a with h | ⟨l, e, rfl, h⟩
    · rw [lines_none h, List.nil_append]
    · have hlt : e.length < (l ++ NL :: e).length := by rw [List.length_append, List.length_cons]; omega
      rw [List.append_assoc, List.cons_append, lines_cons h, lines_cons h, ih _ hlt e rfl]
      rfl

theorem lines_rest (d : List UInt8) : (lines d).2 <:+ d ∧ NL ∉ (lines d).2 := by
  induction hn : d.length using Nat.strong_induction_on generalizing d with
  | _ n ih =>
    subst hn
    rcases line_cases d with h | ⟨l, e, rfl, h⟩
    · rw [lines_none h]
      exact ⟨List.suffix_refl d, h⟩
    · have hlt : e.length < (l ++ NL :: e).length := by rw [List.length_append, List.length_cons]; omega
      obtain ⟨hs, hno⟩ := ih _ hlt e rfl
      rw [lines_cons h]
      exact ⟨(hs.trans (List.suffix_cons ..)).trans (List.suffix_append ..), hno⟩

theorem found_append (re : List UInt8) (xs ys : List (List UInt8)) : found re (xs ++ ys) = found re xs ++ found re ys := by
  unfold found
  rw [List.filter_append, List.flatMap_append]

structure Holds (buf : Mem) (p : Nat) (d : List UInt8) : Prop where
  fits : p + d.length < SIZE
  chars : ∀ i c, d[i]? = some c → buf (p + i) = c
  stop : buf (p + d.length) = 0
  noNUL : 0 ∉ d

theorem Holds.tail {c : UInt8} (h : Holds buf p (c :: d)) : Holds buf (p + 1) d where
  fits := by have := h.fits; rw [List.length_cons] at this; omega
  chars i x hx := by
    rw [Nat.add_assoc, Nat.add_comm 1 i]
    exact h.chars (i + 1) x hx
  stop := by
    have := h.stop
    rw [List.length_cons] at this
    rw [Nat.add_assoc, Nat.add_comm 1 d.length]
    exact this
  noNUL := fun hm => h.noNUL (List.mem_cons_of_mem _ hm)

theorem Holds.head {c : UInt8} (h : Holds buf p (c :: d)) : buf p = c ∧ c ≠ 0 :=
  ⟨h.chars 0 c rfl, fun h0 => h.noNUL (by rw [h0]; exact List.mem_cons_self ..)⟩

theorem Holds.after (h : Holds buf p (l ++ d)) : Holds buf (p + l.length) d := by
  induction l generalizing p with
  | nil => exact h
  | cons c l ih =>
    rw [List.length_cons, Nat.add_comm l.length, ← Nat.add_assoc]
    exact ih h.tail

theorem strchr_none (h : Holds buf p d) (hno : NL ∉ d) (hk : d.length < k) : strchr buf NL k p = .ok none := by
  induction d generalizing p k with
  | nil =>
    obtain ⟨k, rfl⟩ := Nat.exists_eq_succ_of_ne_zero (Nat.ne_zero_of_lt hk)
    rw [strchr, if_pos (by simpa using h.stop)]
  | cons c d ih =>
    obtain ⟨k, rfl⟩ := Nat.exists_eq_succ_of_ne_zero (Nat.ne_zero_of_lt hk)
    obtain ⟨hc, hd⟩ := not_or.mp (mt List.mem_cons.mpr hno)
    obtain ⟨hbuf, h0⟩ := h.head
    rw [strchr, hbuf, if_neg h0, if_neg (Ne.symm hc)]
    exact ih h.tail hd (Nat.lt_of_succ_lt_succ hk)

theorem strchr_some (h : Holds buf p (l ++ NL :: d)) (hno : NL ∉ l) (hk : l.length < k) :
    strchr buf NL k p = .ok (some (p + l.length)) := by
  induction l generalizing p k with
  | nil =>
    obtain ⟨k, rfl⟩ := Nat.exists_eq_succ_of_ne_zero (Nat.ne_zero_of_lt hk)
    obtain ⟨hbuf, h0⟩ := Holds.head h
    rw [strchr, hbuf, if_neg h0, if_pos rfl]
    rfl
  | cons c l ih =>
    obtain ⟨k, rfl⟩ := Nat.exists_eq_succ_of_ne_zero (Nat.ne_zero_of_lt hk)
    obtain ⟨hc, hl⟩ := not_or.mp (mt List.mem_cons.mpr hno)
    obtain ⟨hbuf, h0⟩ := Holds.head h
    rw [strchr, hbuf, if_neg h0, if_neg (Ne.symm hc), ih (Holds.tail h) hl (Nat.lt_of_succ_lt_succ hk), List.length_cons,
      Nat.add_comm l.length, Nat.add_assoc]

theorem bytes_append (buf : Mem) (p a b : Nat) : bytes buf p (a + b) = bytes buf p a ++ bytes buf (p + a) b := by
  simp only [bytes, List.range_add, List.map_append, List.map_map, Function.comp_def, Nat.add_assoc]

theorem bytes_eq (h : ∀ i c, d[i]? = some c → buf (p + i) = c) : bytes buf p d.length = d := by
  apply List.ext_getElem?
  intro i
  rcases Nat.lt_or_ge i d.length with hi | hi
  · rw [bytes, List.getElem?_map, List.getElem?_range hi, List.getElem?_eq_getElem hi]
    exact congrArg some (h i _ (List.getElem?_eq_getElem hi))
  · rw [List.getElem?_eq_none hi, List.getElem?_eq_none (by simpa [bytes] using hi)]

theorem cstr_eq (h : Holds buf p d) : cstr buf p = d := by
  have hfits := h.fits
  have hsplit : SIZE - p = d.length + (SIZE - p - d.length - 1 + 1) := by omega
  have htail : bytes buf (p + d.length) (SIZE - p - d.length - 1 + 1) =
      0 :: bytes buf (p + d.length + 1) (SIZE - p - d.length - 1) := by
    rw [Nat.add_comm _ 1, bytes_append]
    simp [bytes, h.stop]
  have hno : ∀ c ∈ d, decide (c ≠ 0) = true := fun c hc => decide_eq_true fun h0 => h.noNUL (h0 ▸ hc)
  unfold cstr
  rw [hsplit, bytes_append, bytes_eq h.chars, htail, List.takeWhile_append_of_pos hno]
  simp

theorem Holds.ended (h : Holds buf p (l ++ NL :: d)) : Holds (Function.update buf (p + l.length) 0) p l where
  fits := by have := h.fits; rw [List.length_append] at this; omega
  chars i c hc := by
    have hi : i < l.length := (List.getElem?_eq_some_iff.mp hc).1
    rw [Function.update_of_ne (by omega)]
    exact h.chars i c (by rwa [List.getElem?_append_left hi])
  stop := Function.update_self ..
  noNUL hm := h.noNUL (List.mem_append_left _ hm)

theorem Holds.update {c : UInt8} (h : Holds buf p d) (hq : q < p) : Holds (Function.update buf q c) p d where
  fits := h.fits
  chars i x hx := by rw [Function.update_of_ne (by omega)]; exact h.chars i x hx
  stop := by rw [Function.update_of_ne (by omega)]; exact h.stop
  noNUL := h.noNUL

theorem bytes_line (h : Holds buf p (l ++ NL :: d)) :
    bytes (Function.update (Function.update buf (p + l.length) 0) (p + l.length) NL) p (p + l.length + 1 - p) =
      l ++ [NL] := by
  rw [show p + l.length + 1 - p = (l ++ [NL]).length by rw [List.length_append, List.length_singleton]; omega,
    Function.update_idem]
  refine bytes_eq fun i c hc => ?_
  have hi : i < (l ++ [NL]).length := (List.getElem?_eq_some_iff.mp hc).1
  rw [List.length_append, List.length_singleton] at hi
  rcases Nat.lt_or_eq_of_le (Nat.le_of_lt_succ hi) with hi | rfl
  · rw [Function.update_of_ne (by omega)]
    refine h.chars i c ?_
    rwa [List.getElem?_append_left hi] at hc ⊢
  · rw [List.getElem?_concat_length, Option.some.injEq] at hc
    rw [Function.update_self, hc]

/-! ### The loops -/

theorem run_returns (hre : 0 ∉ re) (hl : 0 ∉ l) : ∃ b, run re l = .ok b := by
  have hfrom : ∃ b, matchFrom re l (2 * re.length + l.length + 2) 0 = .ok b := by
    obtain ⟨b, hb, -⟩ := matchFrom_right hre hl (Nat.zero_le _) (Nat.le_refl _)
    exact ⟨b, hb⟩
  unfold run «match»
  cases re with
  | nil => rwa [read_of_nil (Nat.zero_le _) rfl, ok_bind, if_neg (by decide)]
  | cons c re =>
    have hread : read (c :: re) 0 = .ok c := read_of_drop rfl
    rw [hread, ok_bind]
    split
    · obtain ⟨b, hb, -⟩ := (right hre hl (2 * (c :: re).length + l.length + 2)).1 1 0 (Nat.succ_le_succ (Nat.zero_le _))
        (Nat.zero_le _) (by omega)
      exact ⟨b, hb⟩
    · exact hfrom

theorem found_cons (hb : run re l = .ok b) (ls : List (List UInt8)) :
    found re (l :: ls) = (if b then l ++ [NL] else []) ++ found re ls := by
  cases b <;> simp [found, hb]

theorem grepLines_eq (out : List UInt8) (hre : 0 ∉ re) (h : Holds buf p d) (hk : d.length < k) :
    ∃ buf', grepLines re k p buf out = .ok (p + (d.length - (lines d).2.length), buf', out ++ found re (lines d).1) ∧
      Holds buf' (p + (d.length - (lines d).2.length)) (lines d).2 := by
  induction k generalizing p buf d out with
  | zero => exact absurd hk (Nat.not_lt_zero _)
  | succ k ih =>
    have hfits := h.fits
    rw [grepLines]
    rcases line_cases d with hno | ⟨l, e, rfl, hno⟩
    · rw [strchr_none h hno (by omega), lines_none hno, Nat.sub_self, ok_bind]
      refine ⟨buf, ?_, h⟩
      simp [found]
      rfl
    · have hlen : (l ++ NL :: e).length = l.length + 1 + e.length := by
        rw [List.length_append, List.length_cons]
        omega
      have hle : (lines e).2.length ≤ e.length := (lines_rest e).1.length_le
      have hnext : p + ((l ++ NL :: e).length - (lines e).2.length) = p + l.length + 1 + (e.length - (lines e).2.length) := by
        omega
      have htail : Holds buf (p + l.length + 1) e := h.after.tail
      obtain ⟨b, hb⟩ := run_returns hre h.ended.noNUL
      rw [strchr_some h hno (by omega), ok_bind]
      simp only [lines_cons hno]
      rw [cstr_eq h.ended, hb, ok_bind, hnext, found_cons hb, ← List.append_assoc]
      cases b with
      | true =>
        rw [if_pos rfl, if_pos rfl, bytes_line h]
        exact ih _ ((htail.update (Nat.lt_succ_self _)).update (Nat.lt_succ_self _)) (by omega)
      | false =>
        rw [if_neg Bool.false_ne_true, if_neg Bool.false_ne_true, List.append_nil]
        exact ih _ (htail.update (Nat.lt_succ_self _)) (by omega)

/-- Every line fits into the buffer with its newline, and so does what comes after the last newline. -/
structure Short (s : List UInt8) : Prop where
  line : ∀ l ∈ (lines s).1, l.length < SIZE - 1
  rest : (lines s).2.length ≤ SIZE - 1

theorem Short.full (h : Short (d ++ input)) (hno : NL ∉ d) (hlen : d.length = SIZE - 1) : input = [] := by
  rcases line_cases input with hin | ⟨l, e, rfl, hl⟩
  · have hrest := h.rest
    rw [lines_none (by rw [List.mem_append]; tauto), List.length_append] at hrest
    exact List.length_eq_zero_iff.mp (by omega)
  · have hline := h.line (d ++ l) (by
      rw [← List.append_assoc, lines_cons (by rw [List.mem_append]; tauto)]
      exact List.mem_cons_self ..)
    rw [List.length_append] at hline
    omega

theorem Short.after {a b : List UInt8} (h : Short (a ++ b)) : Short ((lines a).2 ++ b) := by
  obtain ⟨hline, hrest⟩ := h
  rw [lines_append] at hline hrest
  exact ⟨fun l hl => hline l (List.mem_append_right _ hl), hrest⟩

def Starts (buf : Mem) (d : List UInt8) : Prop := ∀ i c, d[i]? = some c → buf i = c

theorem holds_store {piece : List UInt8} (h : Starts buf d) (hfits : d.length + piece.length < SIZE) (h0 : 0 ∉ d ++ piece) :
    Holds (Function.update (store buf d.length piece) (d.length + piece.length) 0) 0 (d ++ piece) where
  fits := by rw [List.length_append]; omega
  chars i c hc := by
    have hi : i < (d ++ piece).length := (List.getElem?_eq_some_iff.mp hc).1
    rw [List.length_append] at hi
    rw [Nat.zero_add, Function.update_of_ne (by omega)]
    unfold store
    rcases Nat.lt_or_ge i d.length with hlt | hge
    · rw [if_neg (by omega)]
      rw [List.getElem?_append_left hlt] at hc
      exact h i c hc
    · rw [if_pos ⟨hge, hi⟩, List.getD_eq_getElem?_getD]
      rw [List.getElem?_append_right hge] at hc
      rw [hc, Option.getD_some]
  stop := by rw [Nat.zero_add, List.length_append, Function.update_self]
  noNUL := h0

theorem starts_memmove (h : Holds buf p d) : Starts (memmove 0 p (Int32.ofNat d.length) buf) d := by
  intro i c hc
  have hi : i < d.length := (List.getElem?_eq_some_iff.mp hc).1
  have hfits := h.fits
  have hn : (Int32.ofNat d.length).toInt.toNat = d.length := by
    rw [Int32.toInt_ofNat_of_lt (show d.length < 2 ^ 31 by unfold SIZE at hfits; omega), Int.toNat_natCast]
  have hmoved := moved_memmove (d := 0) (s := p) (n := Int32.ofNat d.length) (m := buf) (by unfold SIZE at hfits; omega)
    (by unfold SIZE at hfits; omega)
  have := hmoved.inside i (by rw [hn]; exact hi)
  rw [Nat.zero_add] at this
  rw [this]
  exact h.chars i c hc

theorem fetch_some (cut : Nat) {want : Nat} (hwant : 0 < want) (hin : input ≠ []) :
    ∃ piece rest, fetch cut want input = (piece, rest) ∧ input = piece ++ rest ∧ 0 < piece.length ∧ piece.length ≤ want := by
  have hpos : 0 < input.length := List.length_pos_iff.mpr hin
  refine ⟨_, _, List.splitAt_eq .., (List.take_append_drop ..).symm, ?_, ?_⟩ <;> rw [List.length_take] <;> omega

theorem grep_round {piece rest : List UInt8} (cut : Nat → Nat) (k : Nat) (out : List UInt8) (hre : 0 ∉ re)
    (h : Starts buf d) (h0 : 0 ∉ d ++ piece)
    (hfetch : fetch (cut r) (SIZE - d.length - 1) input = (piece, rest)) (hpos : 0 < piece.length)
    (hfits : d.length + piece.length < SIZE) :
    ∃ buf', Starts buf' (lines (d ++ piece)).2 ∧ grep re cut (k + 1) r buf d.length input out =
      grep re cut k (r + 1) buf' (lines (d ++ piece)).2.length rest (out ++ found re (lines (d ++ piece)).1) := by
  have hlen : (d ++ piece).length = d.length + piece.length := List.length_append
  have hle : (lines (d ++ piece)).2.length ≤ (d ++ piece).length := (lines_rest (d ++ piece)).1.length_le
  obtain ⟨buf', hrun, hholds⟩ := grepLines_eq out hre (holds_store h hfits h0) (show _ < SIZE + 1 by omega)
  have hm : d.length + piece.length - (0 + ((d ++ piece).length - (lines (d ++ piece)).2.length)) =
      (lines (d ++ piece)).2.length := by omega
  refine ⟨_, starts_memmove hholds, ?_⟩
  rw [grep, hfetch]
  simp only [gt_iff_lt, if_pos hpos, if_pos hfits, hrun, ok_bind, hm, if_pos (show 0 < d.length + piece.length by omega)]

theorem grep_end (hfetch : fetch (cut r) (SIZE - d.length - 1) input = ([], input)) :
    grep re cut (k + 1) r buf d.length input out = .ok (out, input) := by
  rw [grep, hfetch]
  rfl

theorem grep_eq (hre : 0 ∉ re) (h : Starts buf d) (hno : NL ∉ d) (hd : d.length < SIZE) (h0 : 0 ∉ d ++ input)
    (hshort : Short (d ++ input)) (hk : input.length < k) :
    grep re cut k r buf d.length input out = .ok (out ++ found re (lines (d ++ input)).1, []) := by
  induction k generalizing buf d input out r with
  | zero => exact absurd hk (Nat.not_lt_zero _)
  | succ k ih =>
    by_cases hin : input = []
    · subst hin
      rw [grep_end (by simp [fetch]), List.append_nil, lines_none hno]
      simp [found]
    · have hroom : 0 < SIZE - d.length - 1 := by
        by_contra hfull
        exact hin (hshort.full hno (by omega))
      obtain ⟨piece, rest, hfetch, rfl, hpos, hle⟩ := fetch_some (cut r) hroom hin
      rw [← List.append_assoc] at h0 hshort ⊢
      obtain ⟨buf', hbuf, hround⟩ := grep_round cut k out hre h (fun hm => h0 (List.mem_append_left _ hm)) hfetch hpos
        (by omega)
      obtain ⟨hs, hno'⟩ := lines_rest (d ++ piece)
      have hlen := hs.length_le
      rw [List.length_append] at hk hlen
      have h0' : 0 ∉ (lines (d ++ piece)).2 ++ rest := by
        intro hm
        rcases List.mem_append.mp hm with hm | hm
        · exact h0 (List.mem_append_left _ (hs.subset hm))
        · exact h0 (List.mem_append_right _ hm)
      rw [hround, ih hbuf hno' (by omega) h0' hshort.after (by omega), lines_append (d ++ piece) rest, found_append,
        List.append_assoc]

/-- When the buffer is full and has no newline, `grep` returns, and what comes after has not been read. -/
theorem grep_full (buf : Mem) (hre : 0 ∉ re) (hd : d.length = SIZE - 1) (hno : NL ∉ d) (h0 : 0 ∉ d) :
    grep re (fun _ => SIZE) (k + 2) 0 buf 0 (d ++ input) [] = .ok ([], input) := by
  have hstarts : Starts buf [] := nofun
  have hfetch : fetch SIZE (SIZE - 0 - 1) (d ++ input) = (d, input) := by
    have hmin : min (max 1 SIZE) (SIZE - 0 - 1) = d.length := by rw [hd]; rfl
    rw [fetch, hmin, List.splitAt_eq, List.take_left, List.drop_left]
  obtain ⟨buf', hbuf, hround⟩ := grep_round (d := []) (r := 0) (fun _ => SIZE) (k + 1) [] hre hstarts h0 hfetch
    (by rw [hd]; decide) (by rw [hd]; decide)
  rw [List.nil_append, lines_none hno] at hround
  refine hround.trans (grep_end ?_)
  rw [hd, fetch, List.splitAt_eq]
  rfl

theorem run_nil (l : List UInt8) : run [] l = .ok true := rfl

end Xv6.Grep
