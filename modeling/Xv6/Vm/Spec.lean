import Xv6.Vm.Handover

/-! What the functions of `kernel/kalloc.c` and `kernel/vm.c` do to the page tables and to the ownership of pages; no
    panic is reached. -/

namespace Xv6.Vm
open Lib

/-- The only abnormal end is that the operation is looked at, and then ownership is exact. -/
def Looked (L : Layout) : Stop → Sys → Prop
  | .call c, s => ∃ X T, Rep L X s T ∧ ∀ pa, c = some pa → ∃ o, own s T o = some pa
  | _, _ => False

structure Still (s : Sys) (T : Temps) (s' : Sys) (T' : Temps) : Prop where
  kept : Kept s s'
  tab : T'.tab = T.tab
  ent : ∀ r d k, d ≤ 2 → ent s' T' r d k = ent s T r d k

abbrev lv (s : Sys) (T : Temps) (r : Tab) (v : Nat) : Nat := ent s T r 2 v

structure Calm (s : Sys) (T : Temps) (s' : Sys) (T' : Temps) : Prop where
  kept : Kept s s'
  tab : T'.tab = T.tab
  lv : ∀ r v, lv s' T' r v = lv s T r v

section
variable {L : Layout} {X : Pins} {s s' s'' : Sys} {T T' T'' : Temps} {r : Tab} {d k q c pa : Nat}

theorem Still.trans (h : Still s T s' T') (h' : Still s' T' s'' T'') : Still s T s'' T'' :=
  ⟨h.kept.trans h'.kept, h'.tab.trans h.tab, fun r d k hd => (h'.ent r d k hd).trans (h.ent r d k hd)⟩

theorem Still.calm (h : Still s T s' T') : Calm s T s' T' := ⟨h.kept, h.tab, fun r v => h.ent r 2 v (le_refl 2)⟩

theorem Calm.refl : Calm s T s T := ⟨Kept.refl s, rfl, fun _ _ => rfl⟩

theorem Calm.trans (h : Calm s T s' T') (h' : Calm s' T' s'' T'') : Calm s T s'' T'' :=
  ⟨h.kept.trans h'.kept, h'.tab.trans h.tab, fun r v => (h'.lv r v).trans (h.lv r v)⟩

theorem Calm.root (h : Calm s T s' T') : root s' T' r = root s T r := root_congr h.kept h.tab

theorem Still.nd (h : Still s T s' T') (hd : d ≤ 2) : nd s' T' r d k = nd s T r d k := by
  cases d with
  | zero => simp only [Vm.nd, root_congr h.kept h.tab]
  | succ d => simp only [Vm.nd, h.ent r d k (by omega)]

theorem Temps.drop_add (hc : c ∉ T.pages) : (T.add c).drop c = T := by
  simp only [Temps.add, Temps.drop, Finset.erase_insert hc]

theorem Rep.called (h : Rep L X s T) : Rep L X s.called T := ⟨h.exact, h.pins, h.inner, h.leaf, h.pipes, h.kernel⟩

theorem still_called : Still s T s.called T := ⟨kept_called, rfl, fun _ _ _ _ => rfl⟩

section
variable {Q : Unit → Sys → Prop} {R : Nat → Sys → Prop} {E : Stop → Sys → Prop} {a v : Nat}

@[simp] theorem wp_load : wp (load a) R E s ↔ R (s.word a) s := Iff.rfl

@[simp] theorem wp_store : wp (store a v) Q E s ↔ Q () (s.setWord a v) := Iff.rfl

@[simp] theorem wp_memset {c : UInt8} : wp (memset pa c) Q E s ↔ Q () (s.setPage pa (Bytes.fill c)) := Iff.rfl

@[simp] theorem wp_copyPage : wp (copyPage pa q) Q E s ↔ Q () (s.setPage pa (s.page q)) := Iff.rfl

@[simp] theorem wp_onProc {i : Slot} {f : Proc → Proc} :
    wp (onProc i f) Q E s ↔ Q () (s.setProc i (f (s.proc i))) := Iff.rfl

end

theorem wp_look {Q : Unit → Sys → Prop} {E : Stop → Sys → Prop} {o : Option Nat} (hE : E (.call o) s)
    (hQ : Q () s.called) : wp (look o) Q E s := by
  unfold look
  simp only [wp_bind, wp_view, wp_ite, wp_halt, wp_change]
  split
  · exact hE
  · exact hQ

theorem wp_kfree {Q : Unit → Sys → Prop} {E : Stop → Sys → Prop} (hE : E (.call (some pa)) s) (hst : Stock L pa)
    (hQ : Q () (s.called.freed pa)) : wp (kfree L pa) Q E s := by
  unfold kfree
  rw [wp_bind]
  refine wp_look hE ?_
  simp only [wp_ite, wp_bind, wp_halt]
  rw [if_neg]
  · exact hQ
  · rintro (h | h | h)
    · exact h hst.1
    · exact absurd hst.2.1 (Nat.not_le.mpr h)
    · exact absurd hst.2.2 (Nat.not_lt.mpr h)

theorem kfree_temp {Q : Unit → Sys → Prop} (h : Rep L X s T) (hpa : pa ∈ T.pages) (hX : X pa = none)
    (hQ : ∀ s', Rep L X s' (T.drop pa) → Still s T s' (T.drop pa) → Q () s') : wp (kfree L pa) Q (Looked L) s := by
  have ho : own s T (.temp pa) = some pa := Rep.own_temp hpa
  refine wp_kfree ⟨_, T, h, fun pa' he => ⟨_, Option.some.inj he ▸ ho⟩⟩ (h.stock ho) ?_
  obtain ⟨hrep, hent⟩ := h.called.free hpa hX
  exact hQ _ hrep ⟨kept_called.trans kept_freed, Temps.drop_tab, hent⟩

theorem wp_kalloc {Q : Nat → Sys → Prop} (h : Rep L X s T) (hfail : ∀ s', Rep L X s' T → Still s T s' T → Q 0 s')
    (hok : ∀ pa s', Stock L pa → pa ∉ T.pages → X pa = none → Rep L X s' (T.add pa) → Still s T s' (T.add pa) → Q pa s') :
    wp kalloc Q (Looked L) s := by
  unfold kalloc
  rw [wp_bind]
  refine wp_look ⟨_, T, h, by rintro _ ⟨⟩⟩ ?_
  simp only [wp_bind, wp_view, wp_ite]
  split
  · exact hfail _ h.called still_called
  · split
    · exact hfail _ h.called still_called
    · next hne =>
      obtain ⟨hst, hnot, hX, hrep⟩ := h.called.alloc hne
      have hpop : Still s T (s.called.setFree (s.called.word s.called.freelist)) (T.add s.called.freelist) :=
        still_called.trans ⟨kept_setFree, Temps.add_tab, fun r d k _ => ent_kept kept_setFree Temps.add_tab rfl⟩
      obtain ⟨hw, hent⟩ := hrep.write (b := Bytes.fill 5) Rep.own_add Owner.data_temp hX
      exact hok _ _ hst hnot hX hw (hpop.trans ⟨kept_setPage, rfl, hent⟩)

theorem barren_zero (s : Sys) (c : Nat) : Barren (s.setPage c (Bytes.fill 0)).page c := fun i _ => by
  rw [pteAt, show (s.setPage c (Bytes.fill 0)).page c = Bytes.zero from Function.update_self ..]
  exact Bytes.le_zero _ _

theorem Rep.zero (h : Rep L X s T) (hc : c ∈ T.pages) (hX : X c = none) :
    Rep L X (s.setPage c (Bytes.fill 0)) T ∧ Still s T (s.setPage c (Bytes.fill 0)) T ∧
      Barren (s.setPage c (Bytes.fill 0)).page c := by
  obtain ⟨hw, hent⟩ := h.write (b := Bytes.fill 0) (Rep.own_temp hc) nofun hX
  exact ⟨hw, ⟨kept_setPage, rfl, hent⟩, barren_zero s c⟩

/-! ### walk -/

theorem nd_none_below (h : nd s T r d (k / 512) = none) : nd s T r (d + 1) k = none := by
  rw [nd, ent_of_none h, target_zero]

theorem nd_of_lv {v : Nat} (h : lv s T r v ≠ 0) : ∃ q, nd s T r 2 (v / 512) = some q :=
  Option.ne_none_iff_exists'.mp fun hn => h (ent_of_none hn)

theorem Rep.link [X.Open r] (h : Rep L X s T) (hd : d < 2) (hq : nd s T r d (k / 512) = some q) (h0 : ent s T r d k = 0)
    (hc : c ∈ T.pages) (hb : Barren s.page c) (hX : X c = none) :
    Rep L X (s.setWord (q + 8 * (k % 512)) (pa2pte c ||| PTE_V)) (T.drop c) ∧
      Stored s T (s.setWord (q + 8 * (k % 512)) (pa2pte c ||| PTE_V)) (T.drop c) r d k (pa2pte c ||| PTE_V) := by
  have hst := h.stock (Rep.own_temp hc)
  have hpte : Pte (pa2pte c ||| PTE_V) c PTE_V := hst.pte (by decide)
  have ht : target (pa2pte c ||| PTE_V) = some c := hpte.target_eq rfl
  have hne : c ≠ q := fun he => by
    cases h.inj (u := .node r d (k / 512)) (Rep.own_temp hc) (by rw [own_node (by omega), hq, he])
  have he : Entry s T r d k q (pa2pte c ||| PTE_V) := {
    depth := by omega
    page := hq
    inner := fun _ => Or.inr ⟨c, hpte⟩
    leaf := fun h2 => by omega
    old := fun _ c' hc' => by rw [h0, target_zero] at hc'; cases hc'
    new := fun _ c' hc' => by
      cases ht.symm.trans hc'
      exact ⟨hne, hb⟩ }
  exact ⟨h.attach he (fun h2 => by omega) h0 hc ht fun _ => hX, h.stored he Temps.drop_tab⟩

theorem px_key {va v level : Nat} (hv : v = va / PGSIZE) (hk : k = v / 512 ^ level) : px level va = k % 512 := by
  rw [px_eq, hk, hv, Nat.div_div_eq_div_mul, Nat.pow_add, show (512 : Nat) = 2 ^ 9 from rfl, ← Nat.pow_mul]
  rfl

theorem wp_walkFrom {Q : Nat → Sys → Prop} {alloc : Bool} {va v level : Nat} (hr : alloc = true → X.Open r) (hv : v = va / PGSIZE)
    (hlevel : level ≤ 2)
    (h : Rep L X s T) (hq : nd s T r (2 - level) (v / 512 ^ level / 512) = some q)
    (hfound : ∀ s' q', (alloc = false → s' = s) → Rep L X s' T → Calm s T s' T → nd s' T r 2 (v / 512) = some q' →
      Q (q' + 8 * (v % 512)) s')
    (hnone : ∀ s', (alloc = false → s' = s ∧ nd s T r 2 (v / 512) = none) → Rep L X s' T → Calm s T s' T → Q 0 s') :
    wp (walkFrom va alloc level q) Q (Looked L) s := by
  induction level generalizing s q with
  | zero =>
    rw [walkFrom, wp_pure]
    have hpx : px 0 va = v % 512 := by rw [px_eq, hv]; rfl
    rw [hpx]
    exact hfound s q (fun _ => rfl) h Calm.refl (by simpa using hq)
  | succ level ih =>
    obtain ⟨d, hd⟩ : ∃ d, d = 2 - (level + 1) := ⟨_, rfl⟩
    obtain ⟨k, hk⟩ : ∃ k, k = v / 512 ^ (level + 1) := ⟨_, rfl⟩
    have hk' : k = v / 512 ^ level / 512 := by rw [hk, Nat.pow_succ, Nat.div_div_eq_div_mul]
    have hd' : d + 1 = 2 - level := by omega
    have hpx : px (level + 1) va = k % 512 := px_key hv hk
    rw [← hd, ← hk] at hq
    have hal := (h.stock_nd (by omega) hq).1
    have hi : k % 512 < 512 := Nat.mod_lt _ (by omega)
    have hent := ent_of_nd hq
    rw [walkFrom]
    simp only [wp_bind, wp_load, hpx, word_entry hal hi, ← hent]
    split
    · next hvalid =>
      -- the page-table page exists
      have ht : nd s T r (d + 1) k = some (pte2pa (ent s T r d k)) := by rw [nd, target, if_pos hvalid]
      exact ih (by omega) h (by rw [← hd', ← hk', ht]) hfound hnone
    · next hvalid =>
      have h0 : ent s T r d k = 0 := (h.inner r d k (by omega)).eq_zero (by simpa using hvalid)
      split
      · next halloc =>
        refine hnone s (fun _ => ⟨rfl, ?_⟩) h Calm.refl
        have hbelow : nd s T r (2 - level) (v / 512 ^ level / 512) = none := by rw [← hd', ← hk', nd, h0, target_zero]
        rcases level with - | level
        · simpa using hbelow
        · obtain rfl : level = 0 := by omega
          exact nd_none_below (by simpa using hbelow)
      · next halloc =>
        have hr : X.Open r := hr (by simpa using halloc)
        have halloc : alloc = false → False := fun he => by simp [he] at halloc
        simp only [wp_bind]
        refine wp_kalloc h (fun s' hs' hstill => ?_) fun c s' hst hnot hX hs' hstill => ?_
        · exact hnone s' (fun he => (halloc he).elim) hs' hstill.calm
        · -- a new page-table page, zeroed and linked
          simp only [if_neg hst.ne_zero, wp_bind, wp_memset, wp_store]
          obtain ⟨hrep2, hstill2, hb⟩ := hs'.zero (c := c) (Finset.mem_insert_self c T.pages) hX
          have hs2 := hstill.trans hstill2
          obtain ⟨hrep3, hstored⟩ := hrep2.link (r := r) (d := d) (k := k) (q := q) (by omega)
            (by rw [hs2.nd (by omega), hq]) (by rw [hs2.ent r d k (by omega), h0]) (Finset.mem_insert_self c T.pages) hb hX
          rw [Temps.drop_add hnot] at hrep3 hstored
          have hcalm : Calm s T ((s'.setPage c (Bytes.fill 0)).setWord (q + 8 * (k % 512)) (pa2pte c ||| PTE_V)) T := by
            refine ⟨hs2.kept.trans kept_setWord, rfl, fun r' v' => ?_⟩
            rw [lv, hstored.off (le_refl 2) (by omega), hs2.ent r' 2 v' (le_refl 2)]
          refine ih (by omega) hrep3 ?_ (fun s4 q' _ hr hc hn => ?_) fun s4 _ hr hc => ?_
          · rw [← hd', ← hk', nd, hstored.at (by omega)]
            exact (hst.pte (by decide)).target_eq rfl
          · exact hfound s4 q' (fun he => (halloc he).elim) hr (hcalm.trans hc) hn
          · exact hnone s4 (fun he => (halloc he).elim) hr (hcalm.trans hc)

theorem wp_walk {Q : Nat → Sys → Prop} {alloc : Bool} {va p : Nat} (hr : alloc = true → X.Open r) (h : Rep L X s T) (hroot : root s T r = some p)
    (hva : va < MAXVA)
    (hfound : ∀ s' q', (alloc = false → s' = s) → Rep L X s' T → Calm s T s' T →
      nd s' T r 2 (va / PGSIZE / 512) = some q' → Q (q' + 8 * (va / PGSIZE % 512)) s')
    (hnone : ∀ s', (alloc = false → s' = s ∧ nd s T r 2 (va / PGSIZE / 512) = none) → Rep L X s' T → Calm s T s' T →
      Q 0 s') : wp (walk p va alloc) Q (Looked L) s := by
  unfold walk
  simp only [if_neg (Nat.not_le.mpr hva)]
  refine wp_walkFrom hr rfl (le_refl 2) h ?_ hfound hnone
  have hz : va / PGSIZE / 512 ^ 2 / 512 = 0 := by
    rw [Nat.div_div_eq_div_mul, Nat.div_div_eq_div_mul]
    exact Nat.div_eq_of_lt (Nat.lt_trans hva (by decide))
  rw [hz, nd_root, hroot]

theorem wp_walk_mapped {Q : Nat → Sys → Prop} {va p : Nat} (h : Rep L X s T) (hroot : root s T r = some p)
    (hva : va < MAXVA) (hmapped : lv s T r (va / PGSIZE) ≠ 0)
    (hfound : ∀ q, nd s T r 2 (va / PGSIZE / 512) = some q → Q (q + 8 * (va / PGSIZE % 512)) s) :
    wp (walk p va false) Q (Looked L) s := by
  refine wp_walk nofun h hroot hva (fun s' q' hs' _ _ hq' => ?_) fun s' hs' _ _ => ?_
  · obtain rfl := hs' rfl
    exact hfound q' hq'
  · obtain ⟨q, hq⟩ := nd_of_lv hmapped
    rw [(hs' rfl).2] at hq
    cases hq

theorem Rep.word_lv (h : Rep L X s T) {v : Nat} (hq : nd s T r 2 (v / 512) = some q) :
    s.word (q + 8 * (v % 512)) = lv s T r v ∧ q + 8 * (v % 512) ≠ 0 := by
  have hst := h.stock_nd (le_refl 2) hq
  have := hst.ne_zero
  exact ⟨by rw [word_entry hst.1 (Nat.mod_lt _ (by omega)), lv, ent_of_nd hq], by omega⟩

theorem wp_mappages [X.Open r] {Q : Int → Sys → Prop} {va p perm : Nat} (h : Rep L X s T) (hroot : root s T r = some p)
    (hal : va % PGSIZE = 0) (hva : va < MAXVA) (h0 : lv s T r (va / PGSIZE) = 0)
    (hfail : ∀ s', Rep L X s' T → Calm s T s' T → Q (-1) s')
    (hok : ∀ s' q, Rep L X s' T → Calm s T s' T → nd s' T r 2 (va / PGSIZE / 512) = some q →
      Q 0 (s'.setWord (q + 8 * (va / PGSIZE % 512)) (pa2pte pa ||| perm ||| PTE_V))) :
    wp (mappages p va PGSIZE pa perm) Q (Looked L) s := by
  have hlast : (va + PGSIZE - PGSIZE) % 2 ^ 64 = va := by
    rw [Nat.add_sub_cancel]
    exact Nat.mod_eq_of_lt (Nat.lt_trans hva (by decide))
  unfold mappages
  simp only [hal, hlast, ne_eq, not_true_eq_false, if_false, Nat.mod_self, show ¬PGSIZE = 0 by decide,
    show PGSIZE / PGSIZE = 0 + 1 by decide]
  rw [mapFrom, wp_bind]
  refine wp_walk (fun _ => inferInstance) h hroot hva (fun s' q _ hs' hcalm hq => ?_) fun s' _ hs' hcalm => ?_
  · obtain ⟨hword, hne⟩ := hs'.word_lv hq
    simp only [if_neg hne, wp_bind, wp_load, hword, hcalm.lv, h0, has_zero, Bool.false_eq_true, if_false, wp_store,
      if_true]
    exact hok s' q hs' hcalm hq
  · simp only [if_true]
    exact hfail s' hs' hcalm

structure Leafed (s : Sys) (T : Temps) (s' : Sys) (T' : Temps) (r : Tab) (v x : Nat) : Prop where
  kept : Kept s s'
  tab : T'.tab = T.tab
  lv : ∀ r' v', lv s' T' r' v' = if r' = r ∧ v' = v then x else lv s T r' v'

theorem Entry.ofLeaf {v x : Nat} (hq : nd s T r 2 (v / 512) = some q) (hx : Leaf x) : Entry s T r 2 v q x :=
  ⟨le_refl 2, hq, fun h => absurd h (by decide), fun _ => hx, fun h => absurd h (by decide),
    fun h => absurd h (by decide)⟩

theorem Stored.leafed {v x : Nat} (h : Stored s T s' T' r 2 v x) (hk : Kept s s') (htab : T'.tab = T.tab) :
    Leafed s T s' T' r v x :=
  ⟨hk, htab, fun r' v' => by rw [lv, h r' 2 v' (le_refl 2)]; simp only [true_and]⟩

theorem Calm.leafed {v x : Nat} (h : Calm s T s' T') (h' : Leafed s' T' s'' T'' r v x) : Leafed s T s'' T'' r v x :=
  ⟨h.kept.trans h'.kept, h'.tab.trans h.tab, fun r' v' => by rw [h'.lv, h.lv]⟩

theorem leaf_perm {pa f : Nat} (hst : pa % PGSIZE = 0) (hlt : pa < 2 ^ 52) (hperm : f < 1024)
    (hR : has f PTE_R = true) :
    Pte (pa2pte pa ||| f ||| PTE_V) pa (f ||| PTE_V) ∧ has (f ||| PTE_V) PTE_V = true ∧
      has (f ||| PTE_V) PTE_R = true := by
  refine ⟨⟨hst, hlt, Nat.or_lt_two_pow (n := 10) hperm (by decide), Nat.or_assoc ..⟩, ?_, ?_⟩
  · rw [has_union]
    exact Bool.or_true _
  · rw [has_union, hR]
    rfl

section
variable {Q : Int → Sys → Prop} {va p perm : Nat} (h : Rep L X s T) (hroot : root s T r = some p)
  (hal : va % PGSIZE = 0) (h0 : lv s T r (va / PGSIZE) = 0) (hperm : perm < 1024) (hR : has perm PTE_R = true)
  (hfail : ∀ s', Rep L X s' T → Calm s T s' T → Q (-1) s')
include h hroot hal h0 hperm hR hfail

theorem wp_mapUser [X.Open r] (hva : va / PGSIZE < USERPAGES) (hpa : pa ∈ T.pages)
    (hok : ∀ s', Rep L X s' (T.drop pa) →
      Leafed s T s' (T.drop pa) r (va / PGSIZE) (pa2pte pa ||| perm ||| PTE_V) → Q 0 s') :
    wp (mappages p va PGSIZE pa perm) Q (Looked L) s := by
  have hlt : va < MAXVA := by
    simp only [USERPAGES, TRAPFRAME, TRAMPOLINE, MAXVA, PGSIZE] at hva ⊢
    omega
  have hst := h.stock (Rep.own_temp hpa)
  obtain ⟨hpte, hV, hR'⟩ := leaf_perm hst.1 hst.lt hperm hR
  refine wp_mappages h hroot hal hlt h0 hfail fun s' q hs' hcalm hq => ?_
  have he : Entry s' T r 2 (va / PGSIZE) q (pa2pte pa ||| perm ||| PTE_V) :=
    Entry.ofLeaf hq (Or.inr ⟨pa, _, hpte, hV, hR'⟩)
  have h0' : ent s' T r 2 (va / PGSIZE) = 0 := (hcalm.lv r _).trans h0
  refine hok _ (hs'.attach he (fun _ => hva) h0' hpa (hpte.target_eq hV) fun h2 => absurd h2 (by decide)) ?_
  exact hcalm.leafed ((hs'.stored he Temps.drop_tab).leafed kept_setWord Temps.drop_tab)

theorem wp_mapKernel [X.Open r] (hva : va < MAXVA) (htop : USERPAGES ≤ va / PGSIZE) (hst : pa % PGSIZE = 0) (hlt : pa < 2 ^ 52)
    (hok : ∀ s', Rep L X s' T → Leafed s T s' T r (va / PGSIZE) (pa2pte pa ||| perm ||| PTE_V) → Q 0 s') :
    wp (mappages p va PGSIZE pa perm) Q (Looked L) s := by
  obtain ⟨hpte, hV, hR'⟩ := leaf_perm hst hlt hperm hR
  refine wp_mappages h hroot hal hva h0 hfail fun s' q hs' hcalm hq => ?_
  have he : Entry s' T r 2 (va / PGSIZE) q (pa2pte pa ||| perm ||| PTE_V) :=
    Entry.ofLeaf hq (Or.inr ⟨pa, _, hpte, hV, hR'⟩)
  exact hok _ (hs'.setLeaf he (Or.inl htop)) (hcalm.leafed ((hs'.stored he rfl).leafed kept_setWord rfl))

end

theorem freed_setWord {i x : Nat} (hq : q % PGSIZE = 0) (hi : i < 512) (hpa : pa % PGSIZE = 0) (hne : q ≠ pa) :
    (s.freed pa).setWord (q + 8 * i) x = (s.setWord (q + 8 * i) x).freed pa := by
  rw [setWord_entry hq hi, setWord_entry hq hi, freed_eq hpa, freed_eq hpa]
  simp only [Sys.setPage, Sys.setFree, Function.update_of_ne hne]
  rw [Function.update_comm hne]

structure Cleared (s : Sys) (T : Temps) (s' : Sys) (r : Tab) (lo hi : Nat) : Prop where
  kept : Kept s s'
  lv : ∀ r' v, lv s' T r' v = if r' = r ∧ lo ≤ v ∧ v < hi then 0 else lv s T r' v

theorem Cleared.next {lo hi : Nat} (h : Cleared s T s' r lo hi) (hle : lo ≤ hi) (h' : Leafed s' T s'' T r hi 0) :
    Cleared s T s'' r lo (hi + 1) := by
  refine ⟨h.kept.trans h'.kept, fun r' v => ?_⟩
  rw [h'.lv, h.lv]
  by_cases hr : r' = r
  · simp only [hr, true_and]
    split
    · rw [if_pos (by omega)]
    · congr 1
      exact propext (by omega)
  · simp only [hr, false_and, if_false]

/-- Of the pages that table `r` maps at the page numbers in `[lo, hi)`, none is pinned. -/
def Unpinned (X : Pins) (s : Sys) (T : Temps) (r : Tab) (lo hi : Nat) : Prop :=
  ∀ v, lo ≤ v → v < hi → X (pte2pa (lv s T r v)) = none

theorem wp_unmap [X.Open r] {Q : Unit → Sys → Prop} {v : Nat} {doFree : Bool} (h : Rep L X s T)
    (hq : nd s T r 2 (v / 512) = some q) (hmapped : lv s T r v ≠ 0)
    (hfree : doFree = true → v < USERPAGES) (hkeep : doFree = false → USERPAGES ≤ v)
    (hX : doFree = true → X (pte2pa (lv s T r v)) = none)
    (hQ : ∀ s', Rep L X s' T → Leafed s T s' T r v 0 → Q () s') :
    wp (do
      if doFree then kfree L (pte2pa (lv s T r v))
      store (q + 8 * (v % 512)) 0) Q (Looked L) s := by
  have he : Entry s T r 2 v q 0 := Entry.ofLeaf hq (Or.inl rfl)
  cases doFree with
  | false =>
    simp only [Bool.false_eq_true, if_false, wp_store]
    exact hQ _ (h.setLeaf he (Or.inl (hkeep rfl))) ((h.stored he rfl).leafed kept_setWord rfl)
  | true =>
    simp only [if_true, wp_bind, wp_store]
    rcases h.leaf r v with h0 | ⟨pa, f, hpte, hV, hR⟩
    · exact absurd h0 hmapped
    have ht : target (ent s T r 2 v) = some pa := hpte.target_eq hV
    have hown : own s T (.user r v) = some pa := by simp only [own, hfree rfl, if_true, ht]
    have hst := h.stock hown
    have hqst := h.stock_nd (le_refl 2) hq
    have hne : q ≠ pa := fun he => by cases h.inj hown ((own_node (le_refl 2)).trans (he ▸ hq))
    have hX := hX rfl
    rw [show pte2pa (lv s T r v) = pa from hpte.pa_eq] at hX ⊢
    refine wp_kfree ⟨_, T, h, fun pa' he => ⟨_, Option.some.inj he ▸ hown⟩⟩ hst ?_
    -- clearing the entry first comes to the same
    rw [freed_setWord hqst.1 (Nat.mod_lt _ (by omega)) hst.1 hne]
    have he' : Entry s.called T r 2 v q 0 := Entry.ofLeaf ((still_called.nd (le_refl 2)).trans hq) (Or.inl rfl)
    have hrep := h.called.detach (c := pa) he' (fun _ => hfree rfl) ht
    have hnot : pa ∉ T.pages := fun hc => by cases h.inj hown (Rep.own_temp hc)
    obtain ⟨hfreed, hent⟩ := hrep.free (Finset.mem_insert_self pa T.pages) hX
    rw [Temps.drop_add hnot] at hfreed hent
    refine hQ _ hfreed ⟨kept_called.trans (kept_setWord.trans kept_freed), rfl, fun r' v' => ?_⟩
    rw [lv, hent r' 2 v' (le_refl 2), h.called.stored he' (Temps.add_tab (c := pa)) r' 2 v' (le_refl 2)]
    simp only [true_and]
    rfl

theorem wp_uvmunmap [X.Open r] {Q : Unit → Sys → Prop} {v n p : Nat} {b : Bool} (h : Rep L X s T) (hroot : root s T r = some p)
    (hmax : v + n ≤ MAXVA / PGSIZE) (hfree : b = true → v + n ≤ USERPAGES)
    (hkeep : b = false → USERPAGES ≤ v) (hall : ∀ w, v ≤ w → w < v + n → lv s T r w ≠ 0)
    (hX : b = true → Unpinned X s T r v (v + n))
    (hQ : ∀ s', Rep L X s' T → Cleared s T s' r v (v + n) → Q () s') :
    wp (uvmunmap L p (v * PGSIZE) n b) Q (Looked L) s := by
  have hmax' : v + n ≤ 2 ^ 26 := by
    simp only [MAXVA, PGSIZE] at hmax
    omega
  have hend : (v * PGSIZE + n * PGSIZE) % 2 ^ 64 = (v + n) * PGSIZE := by
    rw [← Nat.add_mul]
    simp only [PGSIZE]
    omega
  unfold uvmunmap
  simp only [Nat.mul_mod_left, ne_eq, not_true_eq_false, if_false, hend, wp_bind]
  refine wp_forUp (I := fun a t => ∃ w, a = w * PGSIZE ∧ v ≤ w ∧ w ≤ v + n ∧ Rep L X t T ∧ Cleared s T t r v w)
    (by decide) ⟨v, rfl, le_refl v, by omega, h, Kept.refl s, fun r' u => ?_⟩ ?_ ?_
  · rw [if_neg (by omega)]
  · rintro a t hlt ⟨w, rfl, hvw, hwn, ht, hcl⟩
    have hw : w < v + n := by
      simp only [PGSIZE] at hlt
      omega
    have hdiv : w * PGSIZE / PGSIZE = w := Nat.mul_div_cancel w (by decide)
    have hlv : lv t T r w = lv s T r w := by rw [hcl.lv, if_neg (by omega)]
    have hmapped : lv t T r w ≠ 0 := by
      rw [hlv]
      exact hall w hvw hw
    simp only [wp_bind]
    have hroot' : root t T r = some p := (root_congr hcl.kept rfl).trans hroot
    have hva : w * PGSIZE < MAXVA := by
      simp only [MAXVA, PGSIZE]
      omega
    have hmapped' : lv t T r (w * PGSIZE / PGSIZE) ≠ 0 := by rwa [hdiv]
    refine wp_walk_mapped ht hroot' hva hmapped' fun q hq => ?_
    rw [hdiv] at hq
    obtain ⟨hword, hne⟩ := ht.word_lv hq
    rcases ht.leaf r w with h0 | ⟨pa, f, hpte, hV, hR⟩
    · exact absurd h0 hmapped
    have hflags : pteFlags (lv t T r w) ≠ PTE_V := fun he => by
      rw [show pteFlags (lv t T r w) = f from hpte.flags_eq] at he
      rw [he] at hR
      cases hR
    have hvalid : has (lv t T r w) PTE_V = true := (hpte.has_eq (by decide)).trans hV
    simp only [hdiv, if_neg hne, wp_bind, wp_load, hword, hvalid, Bool.not_true, Bool.false_eq_true, if_false, if_neg hflags]
    have hstep := wp_unmap (Q := fun _ t' => w * PGSIZE + PGSIZE < 2 ^ 64 ∧ ∃ w', w * PGSIZE + PGSIZE = w' * PGSIZE ∧
        v ≤ w' ∧ w' ≤ v + n ∧ Rep L X t' T ∧ Cleared s T t' r v w') ht hq hmapped
      (fun hd => by have := hfree hd; omega) (fun hd => by have := hkeep hd; omega)
      (fun hd => by rw [hlv]; exact hX hd w hvw hw) fun s' hs' hleaf => ?_
    · cases b <;>
      · simp only [Bool.false_eq_true, if_false, if_true, wp_bind, wp_store] at hstep ⊢
        exact hstep
    · refine ⟨?_, w + 1, by rw [Nat.add_mul, Nat.one_mul], by omega, by omega, hs', hcl.next hvw hleaf⟩
      simp only [PGSIZE]
      omega
  · rintro a t hge ⟨w, rfl, hvw, hwn, ht, hcl⟩
    obtain rfl : w = v + n := by
      simp only [PGSIZE] at hge
      omega
    exact hQ t ht hcl

end

end Xv6.Vm
