import Mathlib.Algebra.Order.Ring.Int
import Mathlib.Data.List.Basic
import Mathlib.Data.List.Nodup

/-! Circular doubly linked lists in memory, with a head that is not an element. -/

namespace Xv6.Lib

structure Links (ν : Type) where
  next : ν → ν
  prev : ν → ν

namespace Links
variable {ν : Type} (L : Links ν)

def Path (a : ν) : List ν → ν → Prop
  | [], b => L.next a = b ∧ L.prev b = a
  | x :: l, b => L.next a = x ∧ L.prev x = a ∧ Path x l b

/-- The list with head `h` consists of the nodes `l`, each of them once. -/
structure Circle (h : ν) (l : List ν) : Prop where
  path : L.Path h l h
  nodup : (h :: l).Nodup

def flip : Links ν := ⟨L.prev, L.next⟩

/-- Follow `next` from `b` until a node satisfies `p` or the head is reached. -/
def walk [DecidableEq ν] (h : ν) (p : ν → Bool) : Nat → ν → Option (Option ν)
  | 0, _ => none
  | fuel + 1, b => if b = h then some none else if p b then some (some b) else walk h p fuel (L.next b)

section Ops
variable [DecidableEq ν]

def setNext (a b : ν) : Links ν := { L with next := Function.update L.next a b }

def setPrev (a b : ν) : Links ν := { L with prev := Function.update L.prev a b }

/-- `b->next->prev = b->prev; b->prev->next = b->next;` -/
def unlink (b : ν) : Links ν :=
  let L := L.setPrev (L.next b) (L.prev b)
  L.setNext (L.prev b) (L.next b)

/-- `b->next = head.next; b->prev = &head; head.next->prev = b; head.next = b;` -/
def insert (h b : ν) : Links ν :=
  let L := L.setNext b (L.next h)
  let L := L.setPrev b h
  let L := L.setPrev (L.next h) b
  L.setNext h b

end Ops

variable {L} {a b c h x : ν} {l l₁ l₂ : List ν}

theorem Path.next_mem (hp : L.Path a l b) : L.next a ∈ l ++ [b] := by
  cases l with
  | nil => simp [hp.1]
  | cons x l => simp [hp.1]

theorem Path.prev_mem (hp : L.Path a l b) : L.prev b ∈ a :: l := by
  induction l generalizing a with
  | nil => simp [hp.2]
  | cons x l ih => exact List.mem_cons_of_mem a (ih hp.2.2)

theorem Path.append (h₁ : L.Path a l₁ x) (h₂ : L.Path x l₂ b) : L.Path a (l₁ ++ x :: l₂) b := by
  induction l₁ generalizing a with
  | nil => exact ⟨h₁.1, h₁.2, h₂⟩
  | cons y l₁ ih => exact ⟨h₁.1, h₁.2.1, ih h₁.2.2⟩

theorem Path.split (hp : L.Path a (l₁ ++ x :: l₂) b) : L.Path a l₁ x ∧ L.Path x l₂ b := by
  induction l₁ generalizing a with
  | nil => exact ⟨⟨hp.1, hp.2.1⟩, hp.2.2⟩
  | cons y l₁ ih =>
    obtain ⟨h₁, h₂⟩ := ih hp.2.2
    exact ⟨⟨hp.1, hp.2.1, h₁⟩, h₂⟩

theorem Path.congr {L' : Links ν} (hp : L.Path a l b) (hnext : ∀ x ∈ a :: l, L'.next x = L.next x)
    (hprev : ∀ x ∈ l ++ [b], L'.prev x = L.prev x) : L'.Path a l b := by
  induction l generalizing a with
  | nil => exact ⟨(hnext a (by simp)).trans hp.1, (hprev b (by simp)).trans hp.2⟩
  | cons x l ih =>
    refine ⟨(hnext a (by simp)).trans hp.1, (hprev x (by simp)).trans hp.2.1, ih hp.2.2 (fun y hy => ?_) fun y hy => ?_⟩
    · exact hnext y (List.mem_cons_of_mem a hy)
    · exact hprev y (List.mem_cons_of_mem x hy)

theorem Path.flip (hp : L.Path a l b) : L.flip.Path b l.reverse a := by
  induction l generalizing a with
  | nil => exact ⟨hp.2, hp.1⟩
  | cons x l ih =>
    rw [List.reverse_cons]
    exact (ih hp.2.2).append ⟨hp.2.1, hp.1⟩

theorem Circle.flip (hc : L.Circle h l) : L.flip.Circle h l.reverse :=
  ⟨hc.path.flip, by simpa using hc.nodup⟩

section
variable [DecidableEq ν]

theorem Path.walk (hp : L.Path a l h) (hl : h ∉ l) (p : ν → Bool) {fuel : Nat} (hfuel : l.length < fuel) :
    L.walk h p fuel (L.next a) = some (l.find? p) := by
  induction l generalizing a fuel with
  | nil =>
    obtain ⟨fuel, rfl⟩ := Nat.exists_eq_succ_of_ne_zero (Nat.ne_of_gt hfuel)
    simp [Links.walk, hp.1]
  | cons x l ih =>
    obtain ⟨fuel, rfl⟩ := Nat.exists_eq_succ_of_ne_zero (Nat.ne_of_gt (Nat.lt_of_le_of_lt (Nat.zero_le _) hfuel))
    have hx : x ≠ h := fun he => hl (he ▸ List.mem_cons_self)
    rw [hp.1, Links.walk, if_neg hx, List.find?_cons]
    cases hpx : p x with
    | true => rfl
    | false =>
      exact ih hp.2.2 (fun hm => hl (List.mem_cons_of_mem x hm)) (Nat.lt_of_succ_lt_succ hfuel)

theorem Circle.walk (hc : L.Circle h l) (p : ν → Bool) {fuel : Nat} (hfuel : l.length < fuel) :
    L.walk h p fuel (L.next h) = some (l.find? p) :=
  hc.path.walk (List.nodup_cons.mp hc.nodup).1 p hfuel

theorem Path.bypass (h₁ : L.Path a l₁ b) (h₂ : L.Path b l₂ c) (hnd : (a :: (l₁ ++ b :: l₂)).Nodup)
    (hc : c ∉ l₁ ++ b :: l₂) : (L.unlink b).Path a (l₁ ++ l₂) c := by
  have hbn : b ≠ L.next b := fun he => by
    have := h₂.next_mem
    rw [← he] at this
    grind
  have hunlink : L.unlink b = ⟨Function.update L.next (L.prev b) (L.next b), Function.update L.prev (L.next b) (L.prev b)⟩ := by
    simp [unlink, setPrev, setNext, Function.update_of_ne hbn]
  rw [hunlink]
  clear hunlink hbn
  induction l₁ generalizing a with
  | nil =>
    rw [h₁.2]
    cases l₂ with
    | nil => simp [Path, h₂.1]
    | cons x l₂ =>
      rw [h₂.1]
      refine ⟨Function.update_self .., Function.update_self .., h₂.2.2.congr (fun y hy => ?_) fun y hy => ?_⟩
      · exact Function.update_of_ne (by rintro rfl; grind) ..
      · exact Function.update_of_ne (by rintro rfl; grind) ..
  | cons y l₁ ih =>
    have hprev := h₁.2.2.prev_mem
    have hnext := h₂.next_mem
    refine ⟨?_, ?_, ih h₁.2.2 (by grind) (by grind)⟩
    · rw [← h₁.1]
      exact Function.update_of_ne (by rintro rfl; grind) ..
    · rw [← h₁.2.1]
      exact Function.update_of_ne (by rintro rfl; grind) ..

theorem Circle.unlink (hc : L.Circle h (l₁ ++ b :: l₂)) : (L.unlink b).Circle h (l₁ ++ l₂) := by
  obtain ⟨h₁, h₂⟩ := hc.path.split
  refine ⟨h₁.bypass h₂ hc.nodup (List.nodup_cons.mp hc.nodup).1, ?_⟩
  have := hc.nodup
  grind

theorem Circle.insert (hc : L.Circle h l) (hb : b ∉ h :: l) : (L.insert h b).Circle h (b :: l) := by
  have hbh : b ≠ h := fun he => hb (he ▸ List.mem_cons_self)
  have hnext := hc.path.next_mem
  have hbn : b ≠ L.next h := fun he => by
    rw [← he] at hnext
    grind
  have hnd := hc.nodup
  have hinsert : L.insert h b = ⟨Function.update (Function.update L.next b (L.next h)) h b,
      Function.update (Function.update L.prev b h) (L.next h) b⟩ := by
    simp [Links.insert, setPrev, setNext, Function.update_of_ne hbh.symm]
  rw [hinsert]
  refine ⟨⟨Function.update_self .., ?_, ?_⟩, ?_⟩
  · simp [Function.update_of_ne hbn]
  · have hpath := hc.path
    cases l with
    | nil => simp [Path, Function.update_of_ne hbh, hpath.1]
    | cons x l =>
      refine ⟨?_, ?_, hpath.2.2.congr (fun y hy => ?_) fun y hy => ?_⟩
      · simp [Function.update_of_ne hbh, hpath.1]
      · simp [hpath.1]
      · have h1 : y ≠ h := by rintro rfl; grind
        have h2 : y ≠ b := by rintro rfl; grind
        simp [Function.update_of_ne h1, Function.update_of_ne h2]
      · have h1 : y ≠ L.next h := by
          rw [hpath.1]
          rintro rfl
          grind
        have h2 : y ≠ b := by rintro rfl; grind
        simp [Function.update_of_ne h1, Function.update_of_ne h2]
  · grind

end

end Links

end Xv6.Lib
