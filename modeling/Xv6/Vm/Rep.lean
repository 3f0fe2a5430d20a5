import Xv6.Lib.Ledger
import Xv6.Vm.Process
import Xv6.Vm.Tree

/-! Who owns each page of physical memory, given what the operation in progress holds: `Rep` says that the owners and
    the free list share the allocator's pages out exactly. -/

namespace Xv6.Vm
open Lib

abbrev Tab := Option Slot

inductive Owner where
  -- the page-table page of a table at a depth under a key, and the user page mapped at page number `v`
  | node (r : Tab) (d k : Nat)
  | user (r : Tab) (v : Nat)
  | frame (i : Slot)
  | pipe (pa : Nat)
  | kernel (pa : Nat)
  | temp (pa : Nat)
  deriving DecidableEq

structure Temps where
  tab : Option Nat
  pages : Finset Nat

def Temps.empty : Temps := ⟨none, ∅⟩

def Temps.add (T : Temps) (pa : Nat) : Temps := { T with pages := insert pa T.pages }
def Temps.drop (T : Temps) (pa : Nat) : Temps := { T with pages := T.pages.erase pa }

theorem Temps.add_tab {T : Temps} {c : Nat} : (T.add c).tab = T.tab := rfl
theorem Temps.drop_tab {T : Temps} {c : Nat} : (T.drop c).tab = T.tab := rfl

def ptr (pa : Nat) : Option Nat := if pa = 0 then none else some pa

def USERPAGES : Nat := TRAPFRAME / PGSIZE

section
variable (s : Sys) (T : Temps)

def root : Tab → Option Nat
  | some i => ptr (s.proc i).pagetable
  | none => T.tab

/-- The entry of table `r` with key `k` at depth `d`; at depth 2 it maps page number `k`. -/
def ent (r : Tab) (d k : Nat) : Nat := ((root s T r).map fun p => entry s.page p d k).getD 0

def nd (r : Tab) : Nat → Nat → Option Nat
  | 0, k => if k = 0 then root s T r else none
  | d + 1, k => target (ent s T r d k)

def own : Owner → Option Nat
  | .node r d k => if d ≤ 2 then nd s T r d k else none
  | .user r v => if v < USERPAGES then target (ent s T r 2 v) else none
  | .frame i => ptr (s.proc i).trapframe
  | .pipe pa => if pa ∈ s.pipes.map Pipe.pa then some pa else none
  | .kernel pa => if pa ∈ s.kernel then some pa else none
  | .temp pa => if pa ∈ T.pages then some pa else none

end

def Chain (pg : Nat → Page) : Nat → List Nat → Prop
  | p, [] => p = 0
  | p, q :: l => p = q ∧ q ≠ 0 ∧ Chain pg ((pg q).le 0 8) l

/-- The pages that `kinit` hands to `freerange`. -/
def Stock (L : Layout) (pa : Nat) : Prop := pa % PGSIZE = 0 ∧ L.kend ≤ pa ∧ pa < PHYSTOP

structure Pte (e pa f : Nat) : Prop where
  aligned : pa % PGSIZE = 0
  lt : pa < 2 ^ 52
  flags : f < 1024
  eq : e = pa2pte pa ||| f

def Inner (e : Nat) : Prop := e = 0 ∨ ∃ pa, Pte e pa PTE_V

def Leaf (e : Nat) : Prop := e = 0 ∨ ∃ pa f, Pte e pa f ∧ has f PTE_V = true ∧ has f PTE_R = true

def Owner.Data (o : Owner) : Prop := ∀ r d k, o ≠ .node r d k

/-- Pages whose contents are known, and the frozen tables: only their page-table pages are among those. -/
structure Pins where
  page : Nat → Option Page
  frozen : Tab → Prop

namespace Pins

instance : CoeFun Pins fun _ => Nat → Option Page := ⟨Pins.page⟩

def none : Pins := ⟨fun _ => .none, fun _ => False⟩

def set (X : Pins) (pa : Nat) (x : Option Page) : Pins := { X with page := Function.update X.page pa x }

structure Le (X X' : Pins) : Prop where
  page : ∀ pa b, X pa = some b → X' pa = some b
  frozen : X'.frozen = X.frozen

class Open (X : Pins) (r : Tab) : Prop where
  out : ¬ X.frozen r

def Keeps (X : Pins) (o : Owner) : Prop := ∀ r d k, o = .node r d k → X.frozen r

section
variable {X Y Z : Pins} {pa : Nat} {x : Option Page} {r : Tab} {o : Owner}

instance : none.Open r := ⟨id⟩

instance [h : X.Open r] : (X.set pa x).Open r := ⟨h.out⟩

theorem Le.refl : X.Le X := ⟨fun _ _ h => h, rfl⟩

theorem Le.trans (h : X.Le Y) (h' : Y.Le Z) : X.Le Z :=
  ⟨fun pa b hb => h'.page pa b (h.page pa b hb), h'.frozen.trans h.frozen⟩

theorem Le.isOpen (h : X.Le Y) [hr : X.Open r] : Y.Open r := ⟨h.frozen ▸ hr.out⟩

theorem set_self : X.set pa x pa = x := Function.update_self ..

theorem set_of_ne {c : Nat} (h : c ≠ pa) : X.set pa x c = X c := Function.update_of_ne h ..

theorem le_set (h : X pa = .none) : X.Le (X.set pa x) := by
  refine ⟨fun c b hb => ?_, rfl⟩
  rwa [set_of_ne]
  rintro rfl
  rw [h] at hb
  cases hb

end

end Pins

namespace Owner

theorem data_user {r : Tab} {v : Nat} : (user r v).Data := nofun

theorem data_frame {i : Fin NPROC} : (frame i).Data := nofun

theorem data_pipe {pa : Nat} : (pipe pa).Data := nofun

theorem data_temp {pa : Nat} : (temp pa).Data := nofun

end Owner

theorem Owner.Data.keeps {X : Pins} {o : Owner} (h : o.Data) : X.Keeps o := fun r d k he => absurd he (h r d k)

def Pinned (X : Pins) (s : Sys) (T : Temps) : Prop :=
  ∀ pa b, X pa = some b → s.page pa = b ∧ ∃ o : Owner, X.Keeps o ∧ own s T o = some pa

theorem pinned_none {s : Sys} {T : Temps} : Pinned .none s T := nofun

structure Rep (L : Layout) (X : Pins) (s : Sys) (T : Temps) : Prop where
  exact : ∃ l, Chain s.page s.freelist l ∧ Exact (Stock L) l (own s T)
  pins : Pinned X s T
  inner : ∀ r d k, d < 2 → Inner (ent s T r d k)
  leaf : ∀ r v, Leaf (ent s T r 2 v)
  pipes : (s.pipes.map Pipe.pa).Nodup
  kernel : s.kernel.Nodup

namespace Pte
variable {e pa f g : Nat}

theorem has_eq (h : Pte e pa f) (hg : g < 1024) : has e g = has f g := by
  rw [h.eq]
  exact has_or (Nat.lt_trans h.lt (by decide)) hg

theorem pa_eq (h : Pte e pa f) : pte2pa e = pa := by
  rw [h.eq]
  exact pte2pa_or (Nat.lt_trans h.lt (by decide)) h.aligned h.flags

theorem flags_eq (h : Pte e pa f) : pteFlags e = f := by
  rw [h.eq]
  exact pteFlags_or (Nat.lt_trans h.lt (by decide)) h.flags

theorem lt64 (h : Pte e pa f) : e < 2 ^ 64 := by
  rw [h.eq]
  exact pa2pte_or_lt (Nat.lt_trans h.lt (by decide)) h.flags

theorem target_eq (h : Pte e pa f) (hv : has f PTE_V = true) : target e = some pa := by
  rw [target, h.has_eq (by decide), if_pos hv, h.pa_eq]

end Pte

theorem Inner.eq_zero {e : Nat} (h : Inner e) (hv : has e PTE_V = false) : e = 0 := by
  rcases h with h | ⟨pa, hp⟩
  · exact h
  · rw [hp.has_eq (by decide)] at hv
    cases hv

namespace Stock
variable {L : Layout} {pa : Nat}

theorem ne_zero (h : Stock L pa) : pa ≠ 0 := by
  obtain ⟨-, hk, -⟩ := h
  have := L.below
  simp only [PGSIZE] at this
  omega

theorem lt (h : Stock L pa) : pa < 2 ^ 52 := Nat.lt_trans h.2.2 (by decide)

theorem pte (h : Stock L pa) {f : Nat} (hf : f < 1024) : Pte (pa2pte pa ||| f) pa f := ⟨h.1, h.lt, hf, rfl⟩

end Stock

theorem Chain.congr {pg pg' : Nat → Page} {l : List Nat} {p : Nat} (h : Chain pg p l) (he : ∀ q ∈ l, pg' q = pg q) :
    Chain pg' p l := by
  induction l generalizing p with
  | nil => exact h
  | cons q l ih =>
    obtain ⟨hp, hq, hl⟩ := h
    refine ⟨hp, hq, ?_⟩
    rw [he q List.mem_cons_self]
    exact ih hl fun x hx => he x (List.mem_cons_of_mem _ hx)

section
variable {s s' : Sys} {T T' : Temps} {r r' : Tab} {d k q : Nat}

theorem ent_of_root {p : Nat} (h : root s T r = some p) : ent s T r d k = entry s.page p d k := by
  simp only [ent, h, Option.map_some, Option.getD_some]

theorem ent_of_noroot (h : root s T r = none) : ent s T r d k = 0 := by
  simp only [ent, h, Option.map_none, Option.getD_none]

theorem nd_of_root {p : Nat} (h : root s T r = some p) : nd s T r d k = node s.page p d k := by
  cases d with
  | zero => simp only [nd, node, h]
  | succ d => rw [nd, node_succ, ent_of_root h]

theorem nd_of_noroot (h : root s T r = none) : nd s T r d k = none := by
  cases d with
  | zero => simp only [nd, h, ite_self]
  | succ d => rw [nd, ent_of_noroot h, target_zero]

theorem own_node (hd : d ≤ 2) : own s T (.node r d k) = nd s T r d k := if_pos hd

theorem ent_of_nd (h : nd s T r d (k / 512) = some q) : ent s T r d k = pteAt s.page q (k % 512) := by
  cases hp : root s T r with
  | none =>
    rw [nd_of_noroot hp] at h
    cases h
  | some p =>
    rw [nd_of_root hp] at h
    rw [ent_of_root hp, entry_of_node h]

theorem ent_of_none (h : nd s T r d (k / 512) = none) : ent s T r d k = 0 := by
  cases hp : root s T r with
  | none => exact ent_of_noroot hp
  | some p =>
    rw [nd_of_root hp] at h
    rw [ent_of_root hp, entry_of_none h]

theorem ent_congr (hroot : root s' T' r = root s T r)
    (h : ∀ d k q, d ≤ 2 → nd s T r d k = some q → s'.page q = s.page q) (hd : d ≤ 2) :
    ent s' T' r d k = ent s T r d k := by
  cases hp : root s T r with
  | none => rw [ent_of_noroot hp, ent_of_noroot (hroot.trans hp)]
  | some p =>
    rw [ent_of_root hp, ent_of_root (hroot.trans hp)]
    exact entry_congr (fun d k q hd hq => h d k q hd (by rw [nd_of_root hp, hq])) hd

end

end Xv6.Vm
