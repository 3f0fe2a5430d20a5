import Xv6.Vm.CopySpec

/-! Page tables of processes as a whole: `freewalk`, `uvmfree`, `proc_pagetable` and `proc_freepagetable`. -/

namespace Xv6.Vm
open Lib

section
variable {L : Layout} {X : Pins} {s s' t : Sys} {T : Temps} {r : Tab} {d q p : Nat}

/-! ### freewalk -/

/-- `freewalk` below a page-table page at depth `d` of table `r` has touched nothing above, and no other table. -/
structure Pruned (s : Sys) (T : Temps) (s' : Sys) (r : Tab) (d : Nat) : Prop where
  kept : Kept s s'
  above : ∀ r' d' k, d' ≤ 2 → r' ≠ r ∨ d' < d → ent s' T r' d' k = ent s T r' d' k
  leafless : ∀ v, lv s' T r v = 0

theorem Pruned.nd (h : Pruned s T s' r d) {k : Nat} (hd : d ≤ 2) : nd s' T r d k = nd s T r d k := by
  cases d with
  | zero => simp only [Vm.nd, root_congr h.kept rfl]
  | succ d => simp only [Vm.nd, h.above r d k (by omega) (Or.inr (Nat.lt_succ_self d))]

theorem Pruned.trans {s'' : Sys} (h : Pruned s T s' r d) (h' : Pruned s' T s'' r (d + 1)) : Pruned s T s'' r d :=
  ⟨h.kept.trans h'.kept, fun r' d' k hd hr => by
    rw [h'.above r' d' k hd (hr.imp_right fun hlt => by omega), h.above r' d' k hd hr], h'.leafless⟩

theorem barren_of_ent {key : Nat} (hq : nd s T r d key = some q) (hz : ∀ i < 512, ent s T r d (512 * key + i) = 0) :
    Barren s.page q := by
  intro i hi
  have hdiv : (512 * key + i) / 512 = key := by omega
  have hmod : (512 * key + i) % 512 = i := by omega
  rw [← hz i hi, ent_of_nd (q := q) (by rw [hdiv, hq]), hmod]

theorem Rep.unlink [X.Open r] {key i c : Nat} (h : Rep L X s T) (hd : d < 2) (hq : nd s T r d key = some q) (hi : i < 512)
    (hc : nd s T r (d + 1) (512 * key + i) = some c) (hb : Barren s.page c) :
    Rep L X ((s.called.freed c).setWord (q + 8 * i) 0) T ∧
      Stored s T ((s.called.freed c).setWord (q + 8 * i) 0) T r d (512 * key + i) 0 := by
  have hdiv : (512 * key + i) / 512 = key := by omega
  have hmod : (512 * key + i) % 512 = i := by omega
  have hown : own s T (.node r (d + 1) (512 * key + i)) = some c := (own_node (by omega)).trans hc
  have hqst := h.stock_nd (by omega) hq
  have hcst := h.stock hown
  have hne : q ≠ c := fun he => by
    have := h.inj hown ((own_node (k := key) (by omega)).trans (he ▸ hq))
    injection this with _ hdd _
    omega
  have hnot : c ∉ T.pages := fun hc => by cases h.inj hown (Rep.own_temp hc)
  have ht : target (ent s.called T r d (512 * key + i)) = some c := hc
  have he : Entry s.called T r d (512 * key + i) q 0 := {
    depth := by omega
    page := by rw [hdiv, still_called.nd (by omega), hq]
    inner := fun _ => Or.inl rfl
    leaf := fun h2 => by omega
    old := fun _ c' hc' => by
      cases ht.symm.trans hc'
      exact hb
    new := fun _ c' hc' => by rw [target_zero] at hc'; cases hc' }
  rw [freed_setWord hqst.1 hi hcst.1 hne]
  have hdet := h.called.detach he (fun h2 => by omega) ht
  have hst := h.called.stored he (Temps.add_tab (c := c))
  rw [hmod] at hdet hst
  obtain ⟨hfree, hent⟩ := hdet.free (Finset.mem_insert_self c T.pages) (h.unpinned_nd (by omega) hc)
  rw [Temps.drop_add hnot] at hfree hent
  refine ⟨hfree, fun r' d' k' hd' => ?_⟩
  rw [hent r' d' k' hd', hst r' d' k' hd']
  rfl

theorem wp_freewalk [X.Open r] {Q : Unit → Sys → Prop} {depth key : Nat} (hdepth : d + depth = 3) (hd : d ≤ 2) (h : Rep L X s T)
    (hq : nd s T r d key = some q) (hz : ∀ v, lv s T r v = 0)
    (hQ : ∀ s1, Rep L X s1 T → Pruned s T s1 r d → Barren s1.page q → Q () (s1.called.freed q)) :
    wp (freewalk L depth q) Q (Looked L) s := by
  induction depth generalizing s d q key Q with
  | zero => omega
  | succ depth ih =>
    have hqst := h.stock_nd hd hq
    rw [freewalk, wp_bind]
    -- the entries before the loop's counter are empty
    refine wp_loop_post (I := fun i t => Rep L X t T ∧ Pruned s T t r d ∧ ∀ j < i, ent t T r d (512 * key + j) = 0)
      ⟨h, ⟨Kept.refl s, fun _ _ _ _ _ => rfl, hz⟩, fun j hj => absurd hj (Nat.not_lt_zero j)⟩ ?_ ?_
    · rintro i hi t ⟨ht, hpr, hdone⟩
      have hqt : nd t T r d key = some q := (hpr.nd hd).trans hq
      have hdiv : (512 * key + i) / 512 = key := by omega
      have hmod : (512 * key + i) % 512 = i := by omega
      have hword : t.word (q + 8 * i) = ent t T r d (512 * key + i) := by
        rw [word_entry hqst.1 hi, ent_of_nd (q := q) (by rw [hdiv, hqt]), hmod]
      have hskip : ent t T r d (512 * key + i) = 0 → Rep L X t T ∧ Pruned s T t r d ∧
          ∀ j < i + 1, ent t T r d (512 * key + j) = 0 := fun h0 => by
        refine ⟨ht, hpr, fun j hj => ?_⟩
        rcases Nat.lt_succ_iff_lt_or_eq.mp hj with hj | rfl
        · exact hdone j hj
        · exact h0
      simp only [wp_bind, wp_load, hword]
      rcases Nat.lt_or_ge d 2 with hd2 | hd2
      · rcases ht.inner r d (512 * key + i) hd2 with h0 | ⟨c, hpte⟩
        · simp only [h0, has_zero, Bool.false_and, Bool.false_eq_true, if_false, wp_pure]
          exact hskip h0
        · have hV : has (ent t T r d (512 * key + i)) PTE_V = true := (hpte.has_eq (by decide)).trans rfl
          have hX : has (ent t T r d (512 * key + i)) (PTE_R ||| PTE_W ||| PTE_X) = false :=
            (hpte.has_eq (by decide)).trans rfl
          have hc : nd t T r (d + 1) (512 * key + i) = some c := hpte.target_eq rfl
          simp only [hV, hX, Bool.not_false, Bool.and_self, if_true, hpte.pa_eq, wp_bind, wp_store]
          refine ih (by omega) (by omega) ht hc hpr.leafless fun s1 hs1 hpr1 hb => ?_
          have hc1 : nd s1 T r (d + 1) (512 * key + i) = some c := (hpr1.nd (by omega)).trans hc
          have hpr' := hpr.trans hpr1
          obtain ⟨hrep, hst⟩ := hs1.unlink hd2 ((hpr'.nd hd).trans hq) hi hc1 hb
          refine ⟨hrep, ⟨hpr'.kept.trans (kept_called.trans (kept_freed.trans kept_setWord)), fun r' d' k hd' hr => ?_,
            fun v => ?_⟩, fun j hj => ?_⟩
          · rw [hst.off hd', hpr'.above r' d' k hd' hr]
            rintro ⟨hr', hd'', -⟩
            rcases hr with hr | hr
            · exact hr hr'
            · omega
          · rw [lv, hst.off (le_refl 2) (by omega)]
            exact hpr1.leafless v
          · by_cases hji : j = i
            · rw [hji]
              exact hst.at (by omega)
            · rw [hst.off (by omega) (by omega), hpr1.above r d _ (by omega) (Or.inr (Nat.lt_succ_self d))]
              exact hdone j (by omega)
      · obtain rfl : d = 2 := by omega
        have h0 : ent t T r 2 (512 * key + i) = 0 := hpr.leafless _
        simp only [h0, has_zero, Bool.false_and, Bool.false_eq_true, if_false, wp_pure]
        exact hskip h0
    · rintro t ⟨ht, hpr, hdone⟩
      have hqt : nd t T r d key = some q := (hpr.nd hd).trans hq
      have hown : own t T (.node r d key) = some q := (own_node hd).trans hqt
      exact wp_kfree ⟨_, T, ht, fun pa he => ⟨_, Option.some.inj he ▸ hown⟩⟩ hqst (hQ t ht hpr (barren_of_ent hqt hdone))

/-- Table `r` is empty but for its root page, and no other table has changed. -/
structure Emptied (s : Sys) (T : Temps) (s' : Sys) (r : Tab) (p : Nat) : Prop where
  kept : Kept s s'
  other : ∀ r' v, r' ≠ r → lv s' T r' v = lv s T r' v
  barren : Barren s'.page p

theorem wp_uvmfree [X.Open r] {Q : Unit → Sys → Prop} {sz : Nat} (h : Rep L X s T) (hroot : root s T r = some p)
    (hu : UserTo s T r (pages sz)) (htop : ∀ v, USERPAGES ≤ v → lv s T r v = 0) (hX : Unpinned X s T r 0 (pages sz))
    (hQ : ∀ s1, Rep L X s1 T → Emptied s T s1 r p → Q () (s1.called.freed p)) :
    wp (uvmfree L p sz) Q (Looked L) s := by
  have hn : pages sz ≤ 32768 := h.le_pages hu.mapped
  have hn' : pages sz ≤ USERPAGES := Nat.le_trans hn (by decide)
  have hsz : sz < 2 ^ 63 := by
    simp only [pages, PGSIZE] at hn
    omega
  have hfree : ∀ t, Rep L X t T → Cleared s T t r 0 (pages sz) → wp (freewalk L 3 p) Q (Looked L) t := by
    intro t ht hcl
    have hq : nd t T r 0 0 = some p := by rw [nd_root, root_congr hcl.kept rfl, hroot]
    refine wp_freewalk (d := 0) (by omega) (by omega) ht hq (fun v => ?_) fun s1 hs1 hpr hb =>
      hQ s1 hs1 ⟨hcl.kept.trans hpr.kept, fun r' v hr => ?_, hb⟩
    · rw [hcl.lv]
      split
      · rfl
      · next hout =>
        rcases Nat.lt_or_ge v USERPAGES with hv | hv
        · exact hu.rest v (Nat.le_of_not_lt fun hlt => hout ⟨rfl, Nat.zero_le v, hlt⟩) hv
        · exact htop v hv
    · rw [lv, hpr.above r' 2 v (le_refl 2) (Or.inl hr)]
      exact (hcl.lv r' v).trans (if_neg fun he => hr he.1)
  unfold uvmfree
  by_cases h0 : 0 < sz
  · have hdiv : pgRoundUp sz / PGSIZE = pages sz := by
      rw [pgRoundUp_eq hsz]
      exact Nat.mul_div_cancel _ (by decide)
    simp only [if_pos h0, hdiv, wp_bind]
    exact wp_unmapAll h hroot hn' hu.mapped hX fun s' hs' hcl => hfree s' hs' hcl
  · simp only [if_neg h0]
    obtain rfl : sz = 0 := by omega
    exact hfree s h ⟨Kept.refl s, fun r' v => (if_neg (by rw [show pages 0 = 0 by decide]; omega)).symm⟩

/-- A page table maps the user pages below `n`, the trapframe `tf` and the trampoline, and nothing else. -/
structure Space (L : Layout) (s : Sys) (T : Temps) (r : Tab) (n tf : Nat) : Prop where
  user : UserTo s T r n
  frame : Pte (lv s T r USERPAGES) tf (PTE_R ||| PTE_W ||| PTE_V)
  tramp : Pte (lv s T r (USERPAGES + 1)) L.trampoline (PTE_R ||| PTE_X ||| PTE_V)
  top : ∀ v, USERPAGES + 2 ≤ v → lv s T r v = 0

theorem Space.kernelTop {n tf : Nat} (h : Space L s T r n tf) : KernelTop s T r := by
  intro v hv
  rcases Nat.lt_or_ge v (USERPAGES + 2) with hlt | hge
  · rcases (show v = USERPAGES ∨ v = USERPAGES + 1 by omega) with rfl | rfl
    · exact (h.frame.has_eq (by decide)).trans rfl
    · exact (h.tramp.has_eq (by decide)).trans rfl
  · rw [h.top v hge, has_zero]

theorem TRAMPOLINE_eq : TRAMPOLINE = (USERPAGES + 1) * PGSIZE := by decide
theorem TRAPFRAME_eq : TRAPFRAME = USERPAGES * PGSIZE := by decide

theorem wp_unmapTop [X.Open r] {Q : Unit → Sys → Prop} {v : Nat} (h : Rep L X s T) (hroot : root s T r = some p) (hv : USERPAGES ≤ v)
    (hv' : v ≤ USERPAGES + 1) (hmapped : lv s T r v ≠ 0)
    (hQ : ∀ s', Rep L X s' T → Leafed s T s' T r v 0 → Q () s') :
    wp (uvmunmap L p (v * PGSIZE) 1 false) Q (Looked L) s := by
  refine wp_uvmunmap h hroot ?_ nofun (fun _ => hv) (fun w h1 h2 => ?_) nofun fun s' hs' hcl => ?_
  · have : USERPAGES + 2 = MAXVA / PGSIZE := by decide
    omega
  · obtain rfl : w = v := by omega
    exact hmapped
  · refine hQ s' hs' ⟨hcl.kept, rfl, fun r' w => ?_⟩
    rw [hcl.lv]
    congr 1
    exact propext ⟨fun he => ⟨he.1, by omega⟩, fun he => ⟨he.1, by omega⟩⟩

theorem wp_procFreepagetable [X.Open r] {Q : Unit → Sys → Prop} {sz tf : Nat} (h : Rep L X s T) (hroot : root s T r = some p)
    (hsp : Space L s T r (pages sz) tf) (hX : Unpinned X s T r 0 (pages sz)) (hQ : ∀ s1, Rep L X s1 T → Emptied s T s1 r p → Q () (s1.called.freed p)) :
    wp (procFreepagetable L p sz) Q (Looked L) s := by
  unfold procFreepagetable
  rw [wp_bind, TRAMPOLINE_eq]
  refine wp_unmapTop h hroot (by omega) (by omega) (hsp.tramp.ne_zero rfl) fun s1 hs1 h1 => ?_
  rw [wp_bind, TRAPFRAME_eq]
  have hroot1 : root s1 T r = some p := (root_congr h1.kept rfl).trans hroot
  refine wp_unmapTop hs1 hroot1 (le_refl _) (by omega) ?_ fun s2 hs2 h2 => ?_
  · rw [h1.lv, if_neg (by omega)]
    exact hsp.frame.ne_zero rfl
  · have hlv : ∀ r' v, lv s2 T r' v = if r' = r ∧ USERPAGES ≤ v ∧ v < USERPAGES + 2 then 0 else lv s T r' v := by
      intro r' v
      rw [h2.lv, h1.lv]
      by_cases hr : r' = r
      · simp only [hr, true_and]
        split
        · rw [if_pos (by omega)]
        · split
          · rw [if_pos (by omega)]
          · rw [if_neg (by omega)]
      · simp only [hr, false_and, if_false]
    refine wp_uvmfree hs2 ((root_congr h2.kept rfl).trans hroot1) ⟨fun v hv => ?_, fun v hv1 hv2 => ?_⟩ (fun v hv => ?_)
      (fun v h1 h2 => ?_) fun s3 hs3 hem => hQ s3 hs3 ⟨(h1.kept.trans h2.kept).trans hem.kept, fun r' v hr => ?_, hem.barren⟩
    · have := h.le_pages hsp.user.mapped
      rw [hlv, if_neg]
      · exact hsp.user.mapped v hv
      · have : MAXPAGES < USERPAGES := by decide
        omega
    · rw [hlv, if_neg (by omega)]
      exact hsp.user.rest v hv1 hv2
    · rw [hlv]
      split
      · rfl
      · next hout => exact hsp.top v (Nat.le_of_not_lt fun hlt => hout ⟨rfl, hv, hlt⟩)
    · have := h.le_pages hsp.user.mapped
      have : MAXPAGES < USERPAGES := by decide
      rw [hlv, if_neg (by omega)]
      exact hX v h1 h2
    · rw [hem.other r' v hr, hlv, if_neg fun he => hr he.1]

theorem Rep.endTab [X.Open none] (h : Rep L X s T) (htab : T.tab = some p) (hb : Barren s.page p) :
    Rep L X (s.called.freed p) ⟨none, T.pages⟩ ∧
      ∀ i v, lv (s.called.freed p) ⟨none, T.pages⟩ (some i) v = lv s T (some i) v := by
  obtain ⟨hdrop, hent⟩ := h.called.dropTab htab hb
  have hnode : own s T (.node none 0 0) = some p := by rw [own_node (by omega), nd_root, root, htab]
  have hnot : p ∉ T.pages := fun hc => by cases h.inj hnode (Rep.own_temp hc)
  have hmem : p ∈ (⟨none, insert p T.pages⟩ : Temps).pages := Finset.mem_insert_self p T.pages
  have hT : (⟨none, insert p T.pages⟩ : Temps).drop p = ⟨none, T.pages⟩ := by
    simp only [Temps.drop, Finset.erase_insert hnot]
  obtain ⟨hfree, hent'⟩ := hdrop.free hmem (h.unpinned_nd (r := none) (d := 0) (k := 0) (by omega) (nd_root.trans htab))
  rw [hT] at hfree hent'
  refine ⟨hfree, fun i v => ?_⟩
  rw [lv, hent' (some i) 2 v (le_refl 2), hent]
  rfl

theorem lv_notab {v : Nat} (htab : T.tab = none) : lv s T none v = 0 :=
  ent_of_noroot (show root s T none = none from htab)

theorem wp_abandon [X.Open none] {Q : Unit → Sys → Prop} (h : Rep L X s T) (htab : T.tab = some p) (hz : ∀ v, lv s T none v = 0)
    (hQ : ∀ s', Rep L X s' ⟨none, T.pages⟩ → Kept s s' →
      (∀ i v, lv s' ⟨none, T.pages⟩ (some i) v = lv s T (some i) v) → Q () s') :
    wp (uvmfree L p 0) Q (Looked L) s := by
  refine wp_uvmfree (r := none) h htab ⟨fun v hv => ?_, fun v _ _ => hz v⟩ (fun v _ => hz v) (fun v _ hv => ?_) fun s1 hs1 hem => ?_
  · rw [show pages 0 = 0 by decide] at hv
    omega
  · rw [show pages 0 = 0 by decide] at hv
    omega
  · obtain ⟨hend, hlv⟩ := hs1.endTab htab hem.barren
    refine hQ _ hend (hem.kept.trans (kept_called.trans kept_freed)) fun i v => ?_
    rw [hlv, hem.other (some i) v nofun]

theorem wp_procPagetable [X.Open none] {Q : Nat → Sys → Prop} {tf : Nat} (h : Rep L X s T) (htab : T.tab = none)
    (hal : tf % PGSIZE = 0) (hlt : tf < 2 ^ 52) (hfail : ∀ s', Rep L X s' T → Calm s T s' T → Q 0 s')
    (hok : ∀ p s', p ≠ 0 → Rep L X s' ⟨some p, T.pages⟩ → Kept s s' →
      (∀ i v, lv s' ⟨some p, T.pages⟩ (some i) v = lv s T (some i) v) → Space L s' ⟨some p, T.pages⟩ none 0 tf → Q p s') :
    wp (procPagetable L tf) Q (Looked L) s := by
  have hT : (⟨none, T.pages⟩ : Temps) = T := by rw [← htab]
  -- nothing is left of a page table that is abandoned
  have hback : ∀ s', Rep L X s' ⟨none, T.pages⟩ → Kept s s' →
      (∀ i v, lv s' ⟨none, T.pages⟩ (some i) v = lv s T (some i) v) → Q 0 s' := by
    intro s' hs' hk hlv
    rw [hT] at hs' hlv
    refine hfail s' hs' ⟨hk, rfl, fun r v => ?_⟩
    cases r with
    | none => rw [lv_notab htab, lv_notab htab]
    | some i => exact hlv i v
  have htramp : L.trampoline < 2 ^ 52 := by
    have := L.below
    have := L.kend_le
    rw [PHYSTOP_eq] at this
    simp only [PGSIZE] at *
    omega
  unfold procPagetable uvmcreate
  simp only [wp_bind]
  refine wp_kalloc h (fun s' hs' hst => ?_) fun p s1 hst hnot hX hs1 hstill => ?_
  · simp only [if_true, wp_pure]
    exact hfail s' hs' hst.calm
  obtain ⟨hs2, hstill2, hb⟩ := hs1.zero (c := p) (Finset.mem_insert_self p T.pages) hX
  obtain ⟨hs3, hent3⟩ := hs2.newTab htab (Finset.mem_insert_self p T.pages) hb hX
  rw [show (T.add p).pages.erase p = T.pages from Finset.erase_insert hnot] at hs3 hent3
  simp only [if_neg hst.ne_zero, wp_bind, wp_memset, wp_pure]
  have hkept : Kept s (s1.setPage p (Bytes.fill 0)) := (hstill.trans hstill2).kept
  have hlv : ∀ r v, lv (s1.setPage p (Bytes.fill 0)) ⟨some p, T.pages⟩ r v = lv s T r v := fun r v => by
    rw [lv, hent3, (hstill.trans hstill2).ent r 2 v (le_refl 2)]
  have hz : ∀ v, lv (s1.setPage p (Bytes.fill 0)) ⟨some p, T.pages⟩ none v = 0 := fun v => by
    rw [hlv, lv_notab htab]
  generalize s1.setPage p (Bytes.fill 0) = s4 at hs3 hkept hlv hz
  clear hs1 hs2 hstill hstill2 hb hent3
  have hdiv1 : TRAMPOLINE / PGSIZE = USERPAGES + 1 := by decide
  have hdiv2 : TRAPFRAME / PGSIZE = USERPAGES := by decide
  refine wp_mapKernel (r := none) hs3 rfl (by decide) (hz _) (by decide) (by decide) (fun s5 hs5 hc => ?_) (by decide)
    (by decide) L.aligned htramp fun s5 hs5 hl1 => ?_
  · simp only [show ((-1 : Int) < 0) from by decide, if_true, wp_bind]
    refine wp_abandon hs5 rfl (fun v => by rw [hc.lv, hz]) fun s6 hs6 hk hlv6 => ?_
    exact hback s6 hs6 (hkept.trans (hc.kept.trans hk)) fun i v => by rw [hlv6, hc.lv, hlv]
  rw [hdiv1] at hl1
  simp only [show ¬((0 : Int) < 0) from by decide, if_false, wp_bind]
  refine wp_mapKernel (r := none) hs5 rfl (by decide) ?_ (by decide) (by decide) (fun s6 hs6 hc => ?_) (by decide)
    (by decide) hal hlt fun s6 hs6 hl2 => ?_
  · rw [hdiv2, hl1.lv, if_neg (by omega), hz]
  · simp only [show ((-1 : Int) < 0) from by decide, if_true, wp_bind, TRAMPOLINE_eq]
    refine wp_unmapTop (r := none) hs6 rfl (by omega) (by omega) ?_ fun s7 hs7 hl3 => ?_
    · rw [hc.lv, hl1.lv, if_pos ⟨rfl, rfl⟩]
      exact (leaf_perm L.aligned htramp (f := PTE_R ||| PTE_X) (by decide) (by decide)).1.ne_zero (has_valid _)
    refine wp_abandon hs7 rfl (fun v => ?_) fun s8 hs8 hk hlv8 => ?_
    · rw [hl3.lv]
      split
      · rfl
      · next hne => rw [hc.lv, hl1.lv, if_neg hne, hz]
    · refine hback s8 hs8 (hkept.trans (hl1.kept.trans (hc.kept.trans (hl3.kept.trans hk)))) fun i v => ?_
      rw [hlv8, hl3.lv, if_neg (by rintro ⟨⟨⟩, -⟩), hc.lv, hl1.lv, if_neg (by rintro ⟨⟨⟩, -⟩), hlv]
  · rw [hdiv2] at hl2
    simp only [show ¬((0 : Int) < 0) from by decide, if_false, wp_pure]
    refine hok p s6 hst.ne_zero hs6 (hkept.trans (hl1.kept.trans hl2.kept)) (fun i v => ?_)
      ⟨⟨fun v hv => by omega, fun v _ hv => ?_⟩, ?_, ?_, fun v hv => ?_⟩
    · rw [hl2.lv, if_neg (by rintro ⟨⟨⟩, -⟩), hl1.lv, if_neg (by rintro ⟨⟨⟩, -⟩), hlv]
    · rw [hl2.lv, if_neg (by omega), hl1.lv, if_neg (by omega), hz]
    · rw [hl2.lv, if_pos ⟨rfl, rfl⟩]
      exact (leaf_perm hal hlt (by decide) (by decide)).1
    · rw [hl2.lv, if_neg (by omega), hl1.lv, if_pos ⟨rfl, rfl⟩]
      exact (leaf_perm L.aligned htramp (by decide) (by decide)).1
    · rw [hl2.lv, if_neg (by omega), hl1.lv, if_neg (by omega), hz]

end

end Xv6.Vm
