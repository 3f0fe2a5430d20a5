import Xv6.Bio.Cache
import Xv6.Lib.Dlist

/-! The buffer cache as `kernel/bio.c` represents it, a circular list with head `bcache.head`. The steps are the
    critical sections under `bcache.lock`. -/

namespace Xv6.Lru
open Lib

abbrev Node : Type := Option (Fin NBUF)

structure Buf where
  valid : Bool
  dev : UInt32
  blockno : UInt32
  refcnt : Int

structure Cache where
  buf : Fin NBUF → Buf
  links : Links Node
  -- the references that callers of `bget` and of `bpin` have to a buffer; nothing of it is read by the code
  refs : Fin NBUF → Nat
  pins : Fin NBUF → Nat

/-- `binit`, on memory that is all zero. -/
def binit : Cache where
  buf _ := ⟨false, 0, 0, 0⟩
  links := (List.finRange NBUF).foldl (fun L i => L.insert none (some i)) ⟨fun _ => none, fun _ => none⟩
  refs _ := 0
  pins _ := 0

inductive Action where
  | bget (dev blockno : UInt32)
  | brelse (i : Fin NBUF)
  | bpin (i : Fin NBUF)
  | bunpin (i : Fin NBUF)

inductive Refusal where
  | disabled
  -- `panic("bget: no buffers")`
  | noBuffers
  -- a loop over the list goes on for ever
  | stuck
  deriving DecidableEq

def Buf.holds (b : Buf) (dev blockno : UInt32) : Bool := b.dev = dev && b.blockno = blockno

namespace Cache
variable (s : Cache)

def setBuf (i : Fin NBUF) (b : Buf) : Cache := { s with buf := Function.update s.buf i b }

def countRef (i : Fin NBUF) (n : Nat) : Cache := { s with refs := Function.update s.refs i n }

def countPin (i : Fin NBUF) (n : Nat) : Cache := { s with pins := Function.update s.pins i n }

def addRef (i : Fin NBUF) (k : Int) : Cache := s.setBuf i { s.buf i with refcnt := (s.buf i).refcnt + k }

@[simp] theorem addRef_refs (i : Fin NBUF) (k : Int) : (s.addRef i k).refs = s.refs := rfl
@[simp] theorem addRef_pins (i : Fin NBUF) (k : Int) : (s.addRef i k).pins = s.pins := rfl

def findBlock (dev blockno : UInt32) : Option (Option Node) :=
  s.links.walk none (fun b => b.any fun i => (s.buf i).holds dev blockno) (NBUF + 1) (s.links.next none)

def findUnused : Option (Option Node) :=
  s.links.flip.walk none (fun b => b.any fun i => (s.buf i).refcnt = 0) (NBUF + 1) (s.links.prev none)

def recycle (i : Fin NBUF) (dev blockno : UInt32) : Cache := (s.setBuf i ⟨false, dev, blockno, 1⟩).countRef i (s.refs i + 1)

end Cache

def bget (s : Cache) (dev blockno : UInt32) : Except Refusal Cache :=
  match s.findBlock dev blockno with
  | some (some (some i)) => .ok ((s.addRef i 1).countRef i (s.refs i + 1))
  | some _ =>
    match s.findUnused with
    | some (some (some i)) => .ok (s.recycle i dev blockno)
    | some _ => .error .noBuffers
    | none => .error .stuck
  | none => .error .stuck

/-- `brelse`, after the release of the sleep-lock. -/
def brelse (s : Cache) (i : Fin NBUF) : Cache :=
  let s := (s.addRef i (-1)).countRef i (s.refs i - 1)
  if (s.buf i).refcnt = 0 then { s with links := (s.links.unlink (some i)).insert none (some i) } else s

def step (s : Cache) : Action → Except Refusal Cache
  | .bget dev blockno => bget s dev blockno
  | .brelse i => if 0 < s.refs i then .ok (brelse s i) else .error .disabled
  | .bpin i => .ok ((s.addRef i 1).countPin i (s.pins i + 1))
  | .bunpin i => if 0 < s.pins i then .ok ((s.addRef i (-1)).countPin i (s.pins i - 1)) else .error .disabled

def Cache.Lists (s : Cache) (l : List (Fin NBUF)) : Prop := s.links.Circle none (l.map some) ∧ ∀ i, i ∈ l

structure Inv (s : Cache) : Prop where
  list : ∃ l, s.Lists l
  unique : ∀ i j, (s.buf i).dev ≠ 0 → (s.buf j).dev = (s.buf i).dev → (s.buf j).blockno = (s.buf i).blockno → j = i
  refcnt : ∀ i, (s.buf i).refcnt = s.refs i + s.pins i

theorem circle_binit (l l' : List (Fin NBUF)) (L : Links Node) (hL : L.Circle none (l'.map some))
    (hnd : (l.reverse ++ l').Nodup) :
    (l.foldl (fun L i => L.insert none (some i)) L).Circle none ((l.reverse ++ l').map some) := by
  induction l generalizing l' L with
  | nil => exact hL
  | cons i l ih =>
    rw [List.reverse_cons, List.append_assoc] at hnd ⊢
    refine ih (i :: l') (L.insert none (some i)) (hL.insert ?_) hnd
    have hi : i ∉ l' := by grind
    simpa using hi

theorem inv_binit : Inv binit where
  list := by
    refine ⟨(List.finRange NBUF).reverse ++ [], circle_binit _ [] _ ⟨⟨rfl, rfl⟩, by simp⟩ ?_, fun i => by simp⟩
    simpa using List.nodup_finRange NBUF
  unique i j h := absurd rfl h
  refcnt _ := rfl

section
variable {s t : Cache} {i : Fin NBUF} {l : List (Fin NBUF)}

theorem Cache.Lists.nodup (h : s.Lists l) : l.Nodup := by
  have := (List.nodup_cons.mp h.1.nodup).2
  exact List.Nodup.of_map _ this

theorem Cache.Lists.length_lt (h : s.Lists l) : (l.map some).length < NBUF + 1 := by
  have := List.Nodup.length_le_card h.nodup
  rw [Fintype.card_fin] at this
  rw [List.length_map]
  omega

theorem findBlock_eq (h : s.Lists l) (dev blockno : UInt32) :
    s.findBlock dev blockno = some ((l.find? fun i => (s.buf i).holds dev blockno).map some) := by
  unfold Cache.findBlock
  rw [h.1.walk _ h.length_lt, List.find?_map]
  rfl

theorem findUnused_eq (h : s.Lists l) :
    s.findUnused = some ((l.reverse.find? fun i => (s.buf i).refcnt = 0).map some) := by
  unfold Cache.findUnused
  have hlen := h.length_lt
  rw [show s.links.prev none = s.links.flip.next none from rfl, h.1.flip.walk _ (by simpa using hlen), ← List.map_reverse,
    List.find?_map]
  rfl

theorem bget_eq (h : s.Lists l) (dev blockno : UInt32) :
    bget s dev blockno =
      match l.find? fun i => (s.buf i).holds dev blockno with
      | some i => .ok ((s.addRef i 1).countRef i (s.refs i + 1))
      | none =>
        match l.reverse.find? fun i => (s.buf i).refcnt = 0 with
        | some i => .ok (s.recycle i dev blockno)
        | none => .error .noBuffers := by
  unfold bget
  rw [findBlock_eq h]
  cases l.find? fun i => (s.buf i).holds dev blockno with
  | some i => rfl
  | none =>
    rw [findUnused_eq h]
    cases l.reverse.find? fun i => (s.buf i).refcnt = 0 with
    | some i => rfl
    | none => rfl

theorem holds_iff {b : Buf} {dev blockno : UInt32} : b.holds dev blockno = true ↔ b.dev = dev ∧ b.blockno = blockno := by
  simp [Buf.holds]

/-! ### What a step does -/

theorem step_bget {dev blockno : UInt32} (inv : Inv s) (h : step s (.bget dev blockno) = .ok t) :
    (∃ i, (s.buf i).holds dev blockno = true ∧ t = (s.addRef i 1).countRef i (s.refs i + 1)) ∨
    (∃ i, (∀ j, (s.buf j).holds dev blockno = false) ∧ (s.buf i).refcnt = 0 ∧ t = s.recycle i dev blockno) := by
  obtain ⟨l, hl⟩ := inv.list
  change bget s dev blockno = .ok t at h
  rw [bget_eq hl] at h
  split at h
  · rename_i i hi
    exact .inl ⟨i, List.find?_some (p := fun i => (s.buf i).holds dev blockno) hi, (Except.ok.inj h).symm⟩
  · rename_i hmiss
    split at h
    · rename_i i hi
      refine .inr ⟨i, fun j => ?_, by simpa using List.find?_some hi, (Except.ok.inj h).symm⟩
      simpa using List.find?_eq_none.mp hmiss j (hl.2 j)
    · cases h

theorem addRef_key (s : Cache) (i : Fin NBUF) (k : Int) (j : Fin NBUF) :
    ((s.addRef i k).buf j).dev = (s.buf j).dev ∧ ((s.addRef i k).buf j).blockno = (s.buf j).blockno := by
  by_cases hj : j = i
  · subst hj; simp [Cache.addRef, Cache.setBuf]
  · simp [Cache.addRef, Cache.setBuf, hj]

theorem Inv.count (inv : Inv s) {k : Int} {refs pins : Fin NBUF → Nat}
    (hi : (s.buf i).refcnt + k = refs i + pins i) (hne : ∀ j, j ≠ i → refs j = s.refs j ∧ pins j = s.pins j) :
    Inv { s.addRef i k with refs, pins } := by
  have hcnt : ∀ j, ((s.addRef i k).buf j).refcnt = if j = i then (s.buf i).refcnt + k else (s.buf j).refcnt := fun j => by
    by_cases hj : j = i
    · subst hj; simp [Cache.addRef, Cache.setBuf]
    · simp [Cache.addRef, Cache.setBuf, hj]
  refine ⟨inv.list, fun j m => ?_, fun j => ?_⟩
  · change ((s.addRef i k).buf j).dev ≠ 0 → ((s.addRef i k).buf m).dev = ((s.addRef i k).buf j).dev →
      ((s.addRef i k).buf m).blockno = ((s.addRef i k).buf j).blockno → m = j
    rw [(addRef_key s i k j).1, (addRef_key s i k m).1, (addRef_key s i k j).2, (addRef_key s i k m).2]
    exact inv.unique j m
  · change ((s.addRef i k).buf j).refcnt = (refs j : Int) + pins j
    rw [hcnt j]
    split
    · rename_i hj; rw [hj]; exact hi
    · rename_i hj
      rw [(hne j hj).1, (hne j hj).2]
      exact inv.refcnt j

theorem inv_hit (inv : Inv s) : Inv ((s.addRef i 1).countRef i (s.refs i + 1)) := by
  refine inv.count ?_ fun j hj => ⟨Function.update_of_ne hj .., rfl⟩
  rw [Cache.addRef_refs, Cache.addRef_pins, Function.update_self, inv.refcnt i]
  push_cast
  omega

theorem inv_recycle {dev blockno : UInt32} (inv : Inv s)
    (hmiss : ∀ j, (s.buf j).holds dev blockno = false) (h0 : (s.buf i).refcnt = 0) : Inv (s.recycle i dev blockno) := by
  have hself : (s.recycle i dev blockno).buf i = ⟨false, dev, blockno, 1⟩ := Function.update_self ..
  have hne : ∀ j, j ≠ i → (s.recycle i dev blockno).buf j = s.buf j := fun j hj => Function.update_of_ne hj ..
  have hother : ∀ j, ¬((s.buf j).dev = dev ∧ (s.buf j).blockno = blockno) := fun j hj => by
    have := hmiss j
    rw [holds_iff.mpr hj] at this
    cases this
  refine ⟨inv.list, fun j k hj hd hb => ?_, fun j => ?_⟩
  · by_cases hji : j = i <;> by_cases hki : k = i
    · rw [hji, hki]
    · rw [hji, hself, hne k hki] at hd hb
      exact absurd ⟨hd, hb⟩ (hother k)
    · rw [hki, hself, hne j hji] at hd hb
      exact absurd ⟨hd.symm, hb.symm⟩ (hother j)
    · rw [hne j hji, hne k hki] at *
      exact inv.unique j k hj hd hb
  · have hcount := inv.refcnt j
    by_cases hj : j = i
    · rw [hj, hself]
      rw [hj, h0] at hcount
      change (1 : Int) = (Function.update s.refs i (s.refs i + 1) i : Nat) + s.pins i
      rw [Function.update_self]
      push_cast
      omega
    · rw [hne j hj]
      change (s.buf j).refcnt = (Function.update s.refs i (s.refs i + 1) j : Nat) + s.pins j
      rw [Function.update_of_ne hj]
      exact hcount

theorem Cache.Lists.toFront (h : s.Lists l) (i : Fin NBUF) :
    Cache.Lists { s with links := (s.links.unlink (some i)).insert none (some i) } (i :: l.erase i) := by
  obtain ⟨l₁, l₂, hi, hl, herase⟩ := List.exists_erase_eq (h.2 i)
  have hcircle := h.1
  have hnd := h.nodup
  rw [hl] at hnd
  rw [hl, List.map_append, List.map_cons] at hcircle
  rw [herase]
  refine ⟨?_, fun j => ?_⟩
  · have := hcircle.unlink.insert (b := some i) ?_
    · rw [← List.map_append] at this
      exact this
    · rw [← List.map_append]
      have : i ∉ l₁ ++ l₂ := by grind
      simpa using this
  · have := h.2 j
    rw [hl] at this
    grind

theorem inv_brelse (inv : Inv s) (hpos : 0 < s.refs i) : Inv (brelse s i) := by
  have hdrop : Inv ((s.addRef i (-1)).countRef i (s.refs i - 1)) := by
    refine inv.count ?_ fun j hj => ⟨Function.update_of_ne hj .., rfl⟩
    rw [Cache.addRef_refs, Cache.addRef_pins, Function.update_self, inv.refcnt i]
    omega
  unfold brelse
  dsimp only
  split
  · obtain ⟨l, hl⟩ := hdrop.list
    exact ⟨⟨_, hl.toFront i⟩, hdrop.unique, hdrop.refcnt⟩
  · exact hdrop

theorem inv_step {a : Action} (inv : Inv s) (h : step s a = .ok t) : Inv t := by
  cases a with
  | bget dev blockno =>
    rcases step_bget inv h with ⟨i, -, rfl⟩ | ⟨i, hmiss, h0, rfl⟩
    · exact inv_hit inv
    · exact inv_recycle inv hmiss h0
  | brelse i =>
    simp only [step] at h
    split at h
    · rename_i hpos; cases h; exact inv_brelse inv hpos
    · cases h
  | bpin i =>
    cases h
    refine inv.count ?_ fun j hj => ⟨rfl, Function.update_of_ne hj ..⟩
    rw [Cache.addRef_refs, Cache.addRef_pins, Function.update_self, inv.refcnt i]
    push_cast
    omega
  | bunpin i =>
    simp only [step] at h
    split at h
    · rename_i hpos
      cases h
      refine inv.count ?_ fun j hj => ⟨rfl, Function.update_of_ne hj ..⟩
      rw [Cache.addRef_refs, Cache.addRef_pins, Function.update_self, inv.refcnt i]
      omega
    · cases h

theorem key_step {a : Action} (inv : Inv s) (h : step s a = .ok t) (hi : 0 < (s.buf i).refcnt) :
    (t.buf i).dev = (s.buf i).dev ∧ (t.buf i).blockno = (s.buf i).blockno := by
  cases a with
  | bget dev blockno =>
    rcases step_bget inv h with ⟨j, -, rfl⟩ | ⟨j, -, h0, rfl⟩
    · exact addRef_key s j 1 i
    · have hne : i ≠ j := fun he => by rw [he] at hi; omega
      have : (s.recycle j dev blockno).buf i = s.buf i := Function.update_of_ne hne ..
      rw [this]
      exact ⟨rfl, rfl⟩
  | brelse j =>
    simp only [step] at h
    split at h
    · cases h
      unfold brelse
      dsimp only
      split
      · exact addRef_key s j (-1) i
      · exact addRef_key s j (-1) i
    · cases h
  | bpin j => cases h; exact addRef_key s j 1 i
  | bunpin j =>
    simp only [step] at h
    split at h
    · cases h; exact addRef_key s j (-1) i
    · cases h

/-- The links form one list of all buffers, a block is held by at most one of them, and counts are exact. `bget` takes
    the buffer of the block, or the unreferenced one nearest to `head.prev`, or panics. -/
theorem buffer_cache (h : Reach (· = binit) step (fun _ _ => True) s) :
    ∃ l : List (Fin NBUF), l.Nodup ∧ (∀ i, i ∈ l) ∧ s.links.Circle none (l.map some) ∧
      (∀ i j, (s.buf i).dev ≠ 0 → (s.buf j).dev = (s.buf i).dev → (s.buf j).blockno = (s.buf i).blockno → j = i) ∧
      (∀ i, (s.buf i).refcnt = s.refs i + s.pins i ∧ 0 ≤ (s.buf i).refcnt) ∧
      (∀ a t i, step s a = .ok t → 0 < (s.buf i).refcnt →
        (t.buf i).dev = (s.buf i).dev ∧ (t.buf i).blockno = (s.buf i).blockno) ∧
      (∀ a, step s a ≠ .error .stuck) ∧
      (∀ a, step s a = .error .noBuffers → ∀ i, 0 < (s.buf i).refcnt) ∧
      (∀ dev blockno, (∀ i, (s.buf i).holds dev blockno = false) → (∃ i, (s.buf i).refcnt = 0) →
        ∃ i, l.reverse.find? (fun j => (s.buf j).refcnt = 0) = some i ∧
          step s (.bget dev blockno) = .ok (s.recycle i dev blockno)) := by
  have inv : Inv s := h.invariant (fun _ h0 => h0 ▸ inv_binit) fun _ _ _ inv _ hs => inv_step inv hs
  obtain ⟨l, hl⟩ := inv.list
  have hnonneg : ∀ i, 0 ≤ (s.buf i).refcnt := fun i => by rw [inv.refcnt i]; omega
  refine ⟨l, hl.nodup, hl.2, hl.1, inv.unique, fun i => ⟨inv.refcnt i, hnonneg i⟩, fun a t i => key_step inv, fun a => ?_,
    fun a => ?_, fun dev blockno hmiss hfree => ?_⟩
  · cases a with
    | bget dev blockno =>
      change bget s dev blockno ≠ _
      rw [bget_eq hl]
      split
      · simp
      · split <;> simp
    | brelse i | bunpin i => simp only [step]; split <;> simp
    | bpin i => simp [step]
  · cases a with
    | bget dev blockno =>
      intro hs i
      change bget s dev blockno = _ at hs
      rw [bget_eq hl] at hs
      split at hs
      · cases hs
      · split at hs
        · cases hs
        · rename_i hnone
          have := List.find?_eq_none.mp hnone i (List.mem_reverse.mpr (hl.2 i))
          have hpos := hnonneg i
          simp only [decide_eq_true_eq] at this
          omega
    | brelse i | bunpin i => simp only [step]; split <;> simp
    | bpin i => simp [step]
  · obtain ⟨i, hi⟩ := hfree
    cases hfind : l.reverse.find? fun j => (s.buf j).refcnt = 0 with
    | none =>
      have := List.find?_eq_none.mp hfind i (List.mem_reverse.mpr (hl.2 i))
      simp [hi] at this
    | some j =>
      refine ⟨j, rfl, ?_⟩
      change bget s dev blockno = _
      have hnone : l.find? (fun i => (s.buf i).holds dev blockno) = none :=
        List.find?_eq_none.mpr fun i _ => by simp [hmiss i]
      rw [bget_eq hl, hnone, hfind]

end

theorem buffer_cache_lru : ∃ s : Cache, s.links.next none = some 0 ∧ (s.buf 1).refcnt = 1 ∧ s.refs 1 + s.pins 1 = 1 ∧
    (s.buf 2).blockno = 9 := by
  have h : (run step (fun _ _ => true) binit [.bget 1 7, .bget 1 8, .brelse 0, .bget 1 9]).any (fun s =>
      s.links.next none = some 0 ∧ (s.buf 1).refcnt = 1 ∧ (s.buf 2).blockno = 9) = true := by
    decide +kernel
  obtain ⟨s, hrun, hs⟩ := (Option.any_eq_true _ _).mp h
  obtain ⟨hnext, href, hblock⟩ := of_decide_eq_true hs
  obtain ⟨l, -, -, -, -, hcount, -⟩ := buffer_cache (Reach.of_run (fun _ _ _ => trivial) _ (.init rfl) hrun)
  refine ⟨s, hnext, href, ?_, hblock⟩
  have := (hcount 1).1
  omega

end Xv6.Lru
