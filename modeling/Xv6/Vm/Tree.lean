import Xv6.Vm.PageTable

/-! The page table below a root page as a tree: page-table pages at depths 0 to 2 under the number of the page
    translated divided by a power of 512, and what a store into one entry does to it. -/

namespace Xv6.Vm
open Lib

def pteAt (pg : Nat → Page) (q i : Nat) : Nat := (pg q).le (8 * i) 8

def target (e : Nat) : Option Nat := if has e PTE_V then some (pte2pa e) else none

@[simp] theorem target_zero : target 0 = none := by simp [target]

def node (pg : Nat → Page) (p : Nat) : Nat → Nat → Option Nat
  | 0, k => if k = 0 then some p else none
  | d + 1, k => (node pg p d (k / 512)).bind fun q => target (pteAt pg q (k % 512))

/-- The entry with key `k` at depth `d`, or 0 where there is no page-table page. -/
def entry (pg : Nat → Page) (p d k : Nat) : Nat := ((node pg p d (k / 512)).map fun q => pteAt pg q (k % 512)).getD 0

def Barren (pg : Nat → Page) (q : Nat) : Prop := ∀ i < 512, pteAt pg q i = 0

section
variable {pg pg' : Nat → Page} {p d k q : Nat}

theorem node_succ : node pg p (d + 1) k = target (entry pg p d k) := by
  unfold entry
  rw [node]
  cases node pg p d (k / 512) <;> simp

theorem entry_of_node (h : node pg p d (k / 512) = some q) : entry pg p d k = pteAt pg q (k % 512) := by
  simp [entry, h]

theorem entry_of_none (h : node pg p d (k / 512) = none) : entry pg p d k = 0 := by
  simp [entry, h]

theorem pteAt_congr {i : Nat} (h : pg' q = pg q) : pteAt pg' q i = pteAt pg q i := by
  unfold pteAt
  rw [h]

theorem entry_congr {D : Nat} (h : ∀ d k q, d ≤ D → node pg p d k = some q → pg' q = pg q) (hd : d ≤ D) :
    entry pg' p d k = entry pg p d k := by
  induction d generalizing k with
  | zero =>
    unfold entry
    rw [node, node]
    by_cases hk : k / 512 = 0
    · simp [hk, pteAt_congr (h 0 0 p hd (by simp [node]))]
    · simp [hk]
  | succ d ih =>
    have hnode : node pg' p (d + 1) (k / 512) = node pg p (d + 1) (k / 512) := by
      rw [node_succ, node_succ, ih (by omega)]
    cases hq : node pg p (d + 1) (k / 512) with
    | none => rw [entry_of_none hq, entry_of_none (hnode.trans hq)]
    | some q => rw [entry_of_node hq, entry_of_node (hnode.trans hq), pteAt_congr (h _ _ q hd hq)]

theorem entry_edit {d₀ k₀ x : Nat} (hq : node pg p d₀ (k₀ / 512) = some q)
    (huniq : ∀ d k, d ≤ 2 → node pg p d k = some q → d = d₀ ∧ k = k₀ / 512)
    (hx : ∀ i < 512, pteAt pg' q i = if i = k₀ % 512 then x else pteAt pg q i)
    (hsame : ∀ d k c, d ≤ 2 → node pg p d k = some c → c ≠ q → pg' c = pg c)
    (hold : d₀ < 2 → ∀ c, target (entry pg p d₀ k₀) = some c → Barren pg c)
    (hnew : d₀ < 2 → ∀ c, target x = some c → Barren pg' c) (hd : d ≤ 2) :
    entry pg' p d k = if d = d₀ ∧ k = k₀ then x else entry pg p d k := by
  -- entries at depth `d`, from what the page that holds them has become
  have here : ∀ d k, d ≤ 2 → node pg' p d (k / 512) = node pg p d (k / 512) →
      entry pg' p d k = if d = d₀ ∧ k = k₀ then x else entry pg p d k := by
    intro d k hd hnode
    cases hc : node pg p d (k / 512) with
    | none =>
      rw [entry_of_none hc, entry_of_none (hnode.trans hc), if_neg]
      rintro ⟨rfl, rfl⟩
      rw [hq] at hc
      cases hc
    | some c =>
      rw [entry_of_node hc, entry_of_node (hnode.trans hc)]
      by_cases hcq : c = q
      · subst hcq
        obtain ⟨rfl, hk⟩ := huniq d _ hd hc
        rw [hx _ (Nat.mod_lt _ (by omega))]
        congr 1
        exact propext ⟨fun h => ⟨rfl, by omega⟩, fun h => by rw [h.2]⟩
      · rw [pteAt_congr (hsame d _ c hd hc hcq), if_neg]
        rintro ⟨rfl, rfl⟩
        exact hcq (Option.some.inj (hc.symm.trans hq))
  induction d generalizing k with
  | zero => exact here 0 k hd (by simp [node])
  | succ d ih =>
    by_cases hbelow : d = d₀ ∧ k / 512 = k₀
    · obtain ⟨rfl, rfl⟩ := hbelow
      have hi : k % 512 < 512 := Nat.mod_lt _ (by omega)
      have hnode' : node pg' p (d + 1) (k / 512) = target x := by rw [node_succ, ih (by omega), if_pos ⟨rfl, rfl⟩]
      have hnode : node pg p (d + 1) (k / 512) = target (entry pg p d (k / 512)) := node_succ
      have hzero : entry pg p (d + 1) k = 0 := by
        cases hc : target (entry pg p d (k / 512)) with
        | none => exact entry_of_none (hnode.trans hc)
        | some c => rw [entry_of_node (hnode.trans hc), hold (by omega) c hc _ hi]
      rw [if_neg (by omega), hzero]
      cases hc : target x with
      | none => exact entry_of_none (hnode'.trans hc)
      | some c => rw [entry_of_node (hnode'.trans hc), hnew (by omega) c hc _ hi]
    · refine here (d + 1) k hd ?_
      rw [node_succ, node_succ, ih (by omega), if_neg hbelow]

end

end Xv6.Vm
