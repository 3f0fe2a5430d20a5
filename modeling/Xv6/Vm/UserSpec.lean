import Xv6.Vm.Spec

/-! User address spaces: `uvmdealloc`, `uvmalloc`, `uvmcopy`, `uvmclear` and the copies to and from user memory. -/

namespace Xv6.Vm
open Lib

def pages (sz : Nat) : Nat := (sz + (PGSIZE - 1)) / PGSIZE

def MAXPAGES : Nat := (PHYSTOP - KERNBASE) / PGSIZE

theorem pages_mul (n : Nat) : pages (n * PGSIZE) = n := by
  simp only [pages, PGSIZE]
  omega

theorem pages_mono {a b : Nat} (h : a ≤ b) : pages a ≤ pages b := by
  simp only [pages, PGSIZE]
  omega

theorem pgRoundUp_eq {n : Nat} (h : n < 2 ^ 63) : pgRoundUp n = pages n * PGSIZE := by
  simp only [pgRoundUp, pages, PGSIZE]
  omega

structure UserTo (s : Sys) (T : Temps) (r : Tab) (n : Nat) : Prop where
  mapped : ∀ v < n, lv s T r v ≠ 0
  rest : ∀ v, n ≤ v → v < USERPAGES → lv s T r v = 0

/-- Table `r` has new leaves for the page numbers in `[lo, hi)`, with the flags `perm`. -/
structure Grown (s : Sys) (T : Temps) (s' : Sys) (r : Tab) (lo hi : Nat) (perm : Nat → Nat) : Prop where
  kept : Kept s s'
  new : ∀ v, lo ≤ v → v < hi → ∃ pa, Pte (lv s' T r v) pa (perm v ||| PTE_V)
  old : ∀ r' v, ¬(r' = r ∧ lo ≤ v ∧ v < hi) → lv s' T r' v = lv s T r' v

section
variable {L : Layout} {X X' : Pins} {s s' t : Sys} {T : Temps} {r : Tab} {n m p : Nat} {perm : Nat → Nat}

theorem Pte.ne_zero {e pa f : Nat} (h : Pte e pa f) (hV : has f PTE_V = true) : e ≠ 0 := by
  rintro rfl
  have := h.has_eq (g := PTE_V) (by decide)
  rw [hV, has_zero] at this
  cases this

theorem has_valid (f : Nat) : has (f ||| PTE_V) PTE_V = true := by
  rw [has_union]
  exact Bool.or_true _

theorem Rep.own_user (h : Rep L X s T) {v : Nat} (hv : v < USERPAGES) (hmapped : lv s T r v ≠ 0) :
    own s T (.user r v) = some (pte2pa (lv s T r v)) := by
  rcases h.leaf r v with h0 | ⟨pa, f, hpte, hV, -⟩
  · exact absurd h0 hmapped
  · rw [show pte2pa (lv s T r v) = pa from hpte.pa_eq]
    simp only [own, hv, if_true]
    exact hpte.target_eq hV

theorem Rep.user_ne_temp (h : Rep L X s T) {v mem : Nat} (hv : v < USERPAGES) (hmapped : lv s T r v ≠ 0) (hmem : mem ∈ T.pages) :
    pte2pa (lv s T r v) ≠ mem := fun he => by cases h.inj (h.own_user hv hmapped) (he ▸ Rep.own_temp hmem)

theorem Rep.le_pages (h : Rep L X s T) (hmapped : ∀ v < n, lv s T r v ≠ 0) : n ≤ MAXPAGES := by
  obtain ⟨l, -, hex⟩ := h.exact
  obtain ⟨N, hN⟩ : ∃ N, N = MAXPAGES := ⟨_, rfl⟩
  have hval : N = 32768 := hN.trans (by decide)
  rw [← hN]
  by_contra hlt
  have hbase : KERNBASE ≤ L.kend := Nat.le_trans L.base (Nat.le_trans (Nat.le_add_right _ _) L.below)
  have hbound : N + 1 ≤ N := by
    refine hex.bound (w := fun pa => (pa - KERNBASE) / PGSIZE) (fun p q hp hq he => ?_) (fun p hp => ?_)
      (f := fun v => .user r v) (fun i j he => (Owner.user.inj he).2) fun v hv => ?_
    · obtain ⟨hp1, hp2, -⟩ := hp
      obtain ⟨hq1, hq2, -⟩ := hq
      simp only [KERNBASE_eq, PGSIZE] at hbase hp1 hq1 he
      omega
    · have hp2 := hp.2.1
      have hp3 := hp.2.2
      rw [PHYSTOP_eq] at hp3
      simp only [KERNBASE_eq, PGSIZE] at hbase ⊢
      omega
    · exact ⟨_, h.own_user (Nat.lt_of_lt_of_le hv (by subst hval; decide)) (hmapped v (by omega))⟩
  omega

theorem Grown.refl : Grown s T s r n n perm :=
  ⟨Kept.refl s, fun v h1 h2 => by omega, fun _ _ _ => rfl⟩

theorem Grown.next (h : Grown s T s' r n m perm) (hle : n ≤ m) {pa : Nat} (hst : pa % PGSIZE = 0) (hlt : pa < 2 ^ 52)
    (hperm : perm m < 1024) (h' : Leafed s' T t T r m (pa2pte pa ||| perm m ||| PTE_V)) :
    Grown s T t r n (m + 1) perm := by
  refine ⟨h.kept.trans h'.kept, fun v h1 h2 => ?_, fun r' v hv => ?_⟩
  · rw [h'.lv]
    by_cases hv : v = m
    · subst hv
      rw [if_pos ⟨rfl, rfl⟩]
      exact ⟨pa, hst, hlt, Nat.or_lt_two_pow (n := 10) hperm (by decide), Nat.or_assoc ..⟩
    · rw [if_neg fun he => hv he.2]
      exact h.new v h1 (by omega)
  · rw [h'.lv, if_neg, h.old r' v fun he => hv ⟨he.1, he.2.1, by omega⟩]
    rintro ⟨rfl, rfl⟩
    exact hv ⟨rfl, hle, by omega⟩

theorem Grown.mapped (h : Grown s T s' r n m perm) (hs : ∀ v < n, lv s T r v ≠ 0) : ∀ v < m, lv s' T r v ≠ 0 := by
  intro v hv
  by_cases hn : v < n
  · rw [h.old r v (by omega)]
    exact hs v hn
  · obtain ⟨pa, hpte⟩ := h.new v (by omega) hv
    exact hpte.ne_zero (has_valid _)

theorem Grown.undo (h : Grown s T s' r n m perm) (hz : ∀ v, n ≤ v → v < m → lv s T r v = 0)
    (h' : Cleared s' T t r n m) : Calm s T t T := by
  refine ⟨h.kept.trans h'.kept, rfl, fun r' v => ?_⟩
  rw [h'.lv]
  split
  · next hin =>
    obtain ⟨rfl, h1, h2⟩ := hin
    exact (hz v h1 h2).symm
  · next hout => exact h.old r' v hout

theorem Grown.userTo (h : Grown s T s' r n m perm) (hu : UserTo s T r n) (hle : n ≤ m) : UserTo s' T r m :=
  ⟨h.mapped hu.mapped, fun v h1 h2 => by
    rw [h.old r v (by omega)]
    exact hu.rest v (by omega) h2⟩

theorem Cleared.userTo {k : Nat} (h : Cleared s T s' r k n) (hu : UserTo s T r n) (hle : k ≤ n) : UserTo s' T r k := by
  refine ⟨fun v hv => ?_, fun v h1 h2 => ?_⟩
  · rw [h.lv, if_neg (by omega)]
    exact hu.mapped v (by omega)
  · rw [h.lv]
    split
    · rfl
    · next hout => exact hu.rest v (Nat.le_of_not_lt fun hlt => hout ⟨rfl, h1, hlt⟩) h2

/-! ### uvmdealloc -/

theorem wp_uvmdealloc [X.Open r] {Q : Nat → Sys → Prop} {oldsz newsz : Nat} (h : Rep L X s T) (hroot : root s T r = some p)
    (hsz : oldsz ≤ MAXPAGES * PGSIZE) (hall : ∀ v, pages newsz ≤ v → v < pages oldsz → lv s T r v ≠ 0)
    (hX : Unpinned X s T r (pages newsz) (pages oldsz))
    (hQ : ∀ s', Rep L X s' T → Cleared s T s' r (pages newsz) (pages oldsz) → Q (min oldsz newsz) s') :
    wp (uvmdealloc L p oldsz newsz) Q (Looked L) s := by
  have hempty : pages oldsz ≤ pages newsz → Cleared s T s r (pages newsz) (pages oldsz) := fun hle =>
    ⟨Kept.refl s, fun r' v => by rw [if_neg (by omega)]⟩
  have hmax : oldsz ≤ 134217728 := hsz
  unfold uvmdealloc
  rw [wp_ite]
  split
  · next hle =>
    have := hQ s h (hempty (pages_mono hle))
    rwa [Nat.min_eq_left hle] at this
  · next hlt =>
    rw [Nat.min_eq_right (by omega)] at hQ
    rw [pgRoundUp_eq (n := oldsz) (by omega), pgRoundUp_eq (n := newsz) (by omega)]
    have hn : pages oldsz ≤ 32768 := by
      simp only [pages, PGSIZE]
      omega
    split
    · next hr =>
      have hr' : pages newsz < pages oldsz := by
        simp only [PGSIZE] at hr
        omega
      have hdiv : (pages oldsz * PGSIZE - pages newsz * PGSIZE) / PGSIZE = pages oldsz - pages newsz := by
        rw [← Nat.mul_sub_right_distrib]
        exact Nat.mul_div_cancel _ (by decide)
      have hint : asInt (pages oldsz - pages newsz) = pages oldsz - pages newsz := by
        unfold asInt
        rw [Nat.mod_eq_of_lt (by omega), if_pos (by omega)]
      have hsum : pages newsz + (pages oldsz - pages newsz) = pages oldsz := by omega
      rw [hdiv, hint, wp_bind]
      refine wp_uvmunmap h hroot ?_ (fun _ => ?_) (by rintro ⟨⟩) (fun w h1 h2 => hall w h1 (by omega))
        (fun _ w h1 h2 => hX w h1 (by omega)) fun s' hs' hcl => ?_
      · simp only [MAXVA, PGSIZE]
        omega
      · simp only [USERPAGES, TRAPFRAME, TRAMPOLINE, MAXVA, PGSIZE]
        omega
      · rw [hsum] at hcl
        exact hQ s' hs' hcl
    · next hr =>
      refine hQ s h (hempty ?_)
      simp only [PGSIZE] at hr
      omega

theorem wp_undo [X.Open r] {Q : Nat → Sys → Prop} (h : Rep L X t T) (hroot : root s T r = some p) (hg : Grown s T t r n m perm)
    (hu : UserTo s T r n) (hX : Unpinned X t T r n m) (hQ : ∀ x s', Rep L X s' T → Calm s T s' T → Q x s') :
    wp (uvmdealloc L p (m * PGSIZE) (n * PGSIZE)) Q (Looked L) t := by
  have hm := h.le_pages (hg.mapped hu.mapped)
  refine wp_uvmdealloc h ((root_congr hg.kept rfl).trans hroot) (Nat.mul_le_mul_right _ hm) ?_ ?_ fun s' hs' hcl => ?_
  · rw [pages_mul, pages_mul]
    exact fun v _ hv => hg.mapped hu.mapped v hv
  · rw [pages_mul, pages_mul]
    exact hX
  · rw [pages_mul, pages_mul] at hcl
    refine hQ _ s' hs' (hg.undo (fun v h1 h2 => hu.rest v h1 ?_) hcl)
    exact Nat.lt_of_lt_of_le h2 (Nat.le_trans hm (by decide))

theorem Grown.calm (h : Grown s T s' r n m perm) (h' : Calm s' T t T) : Grown s T t r n m perm := by
  refine ⟨h.kept.trans h'.kept, fun v h1 h2 => ?_, fun r' v hv => ?_⟩
  · rw [h'.lv]
    exact h.new v h1 h2
  · rw [h'.lv, h.old r' v hv]

theorem Unpinned.calm {lo hi : Nat} {T' : Temps} (h : Unpinned X s T r lo hi) (h' : Calm s T s' T') : Unpinned X s' T' r lo hi := fun v h1 h2 => by
  rw [h'.lv]
  exact h v h1 h2

/-- Of the new pages in `[lo, hi)` nothing was known before, and the contents `c` are known now. -/
structure Filled (X X' : Pins) (s : Sys) (T : Temps) (r : Tab) (lo hi : Nat) (c : Nat → Option Page) : Prop where
  le : X.Le X'
  unpinned : Unpinned X s T r lo hi
  pinned : ∀ v, lo ≤ v → v < hi → X' (pte2pa (lv s T r v)) = c v
  only : ∀ pa, X pa = none → X' pa ≠ none → ∃ v, lo ≤ v ∧ v < hi ∧ pa = pte2pa (lv s T r v)

theorem Filled.refl {c : Nat → Option Page} : Filled X X s T r n n c :=
  ⟨.refl, fun v h1 h2 => by omega, fun v h1 h2 => by omega, fun _ h h' => absurd h h'⟩

theorem Filled.next {c : Nat → Option Page} {mem e : Nat} (h : Filled X X' s T r n m c) (hle : n ≤ m) (hmem : X' mem = none)
    (he : pte2pa e = mem) (h' : Leafed s T t T r m e) (hold : ∀ v, n ≤ v → v < m → pte2pa (lv s T r v) ≠ mem) :
    Filled X (X'.set mem (c m)) t T r n (m + 1) c := by
  have hlv : ∀ v, v ≠ m → lv t T r v = lv s T r v := fun v hv => by rw [h'.lv, if_neg fun h => hv h.2]
  have hat : lv t T r m = e := by rw [h'.lv, if_pos ⟨rfl, rfl⟩]
  have hX : X mem = none := by
    cases hx : X mem with
    | none => rfl
    | some b => rw [h.le.page mem b hx] at hmem; cases hmem
  refine ⟨h.le.trans (Pins.le_set hmem), fun v h1 h2 => ?_, fun v h1 h2 => ?_, fun pa hpa hpa' => ?_⟩
  · by_cases hv : v = m
    · rw [hv, hat, he, hX]
    · rw [hlv v hv]
      exact h.unpinned v h1 (by omega)
  · by_cases hv : v = m
    · rw [hv, hat, he, Pins.set_self]
    · rw [hlv v hv, Pins.set_of_ne (hold v h1 (by omega))]
      exact h.pinned v h1 (by omega)
  · by_cases hm : pa = mem
    · exact ⟨m, hle, Nat.lt_succ_self m, by rw [hat, he, hm]⟩
    · rw [Pins.set_of_ne hm] at hpa'
      obtain ⟨v, h1, h2, hv⟩ := h.only pa hpa hpa'
      exact ⟨v, h1, by omega, by rw [hlv v (by omega), hv]⟩

theorem Grown.ne_fresh {s1 : Sys} {mem : Nat} (h : Grown s T t r n m perm) (h1 : Rep L X s1 (T.add mem)) (hst : Still t T s1 (T.add mem))
    (hs : ∀ v < n, lv s T r v ≠ 0) (hm : m < USERPAGES) : ∀ v, n ≤ v → v < m → pte2pa (lv t T r v) ≠ mem := by
  intro v _ hv
  have hlv : lv s1 (T.add mem) r v = lv t T r v := hst.ent r 2 v (le_refl 2)
  rw [← hlv]
  refine h1.user_ne_temp (by omega) ?_ (Finset.mem_insert_self mem T.pages)
  rw [hlv]
  exact h.mapped hs v hv

theorem wp_mapNext [X.Open r] {Q : Int → Sys → Prop} {s1 : Sys} {mem : Nat} {f : Nat → Nat} (h : Rep L X s1 (T.add mem))
    (hroot : root s T r = some p) (hg : Grown s T t r n m f) (hcalm : Calm t T s1 (T.add mem)) (hle : n ≤ m)
    (hu : UserTo s T r n) (hmem : mem ∉ T.pages) (hm : m < USERPAGES) (hperm : f m < 1024)
    (hR : has (f m) PTE_R = true)
    (hfail : ∀ s', Rep L X s' (T.add mem) → Calm t T s' (T.add mem) → Q (-1) s')
    (hok : ∀ s', Rep L X s' T → Leafed t T s' T r m (pa2pte mem ||| f m ||| PTE_V) → Grown s T s' r n (m + 1) f → Q 0 s') :
    wp (mappages p (m * PGSIZE) PGSIZE mem (f m)) Q (Looked L) s1 := by
  have hdiv : m * PGSIZE / PGSIZE = m := Nat.mul_div_cancel m (by decide)
  have hst := h.stock (Rep.own_temp (Finset.mem_insert_self mem T.pages))
  refine wp_mapUser h (hcalm.root.trans ((root_congr hg.kept rfl).trans hroot)) (Nat.mul_mod_left _ _) ?_ hperm hR
    (fun s' hs' hc => hfail s' hs' (hcalm.trans hc)) (by rw [hdiv]; exact hm) (Finset.mem_insert_self mem T.pages)
    fun s' hs' hleaf => ?_
  · rw [hdiv, hcalm.lv, hg.old r m (by omega)]
    exact hu.rest m hle hm
  · rw [Temps.drop_add hmem, hdiv] at hleaf
    rw [Temps.drop_add hmem] at hs'
    exact hok s' hs' (hcalm.leafed hleaf) (hg.next hle hst.1 hst.lt hperm (hcalm.leafed hleaf))

theorem wp_uvmalloc [X.Open r] {Q : Nat → Sys → Prop} {oldsz newsz xperm : Nat} (h : Rep L X s T) (hroot : root s T r = some p)
    (hu : UserTo s T r (pages oldsz)) (hx : xperm < 1024) (hfail : ∀ s', Rep L X s' T → Calm s T s' T → Q 0 s')
    (hshrink : newsz < oldsz → Q oldsz s)
    (hok : ∀ s' X', oldsz ≤ newsz → Rep L X' s' T →
      Grown s T s' r (pages oldsz) (pages newsz) (fun _ => PTE_R ||| PTE_U ||| xperm) →
      Filled X X' s' T r (pages oldsz) (pages newsz) (fun _ => some Bytes.zero) → Q newsz s') :
    wp (uvmalloc L p oldsz newsz xperm) Q (Looked L) s := by
  have hperm : PTE_R ||| PTE_U ||| xperm < 1024 := Nat.or_lt_two_pow (n := 10) (by decide) hx
  have hR : has (PTE_R ||| PTE_U ||| xperm) PTE_R = true := by
    rw [has_union]
    rfl
  have hsz : oldsz < 2 ^ 63 := by
    have hn : pages oldsz ≤ 32768 := h.le_pages hu.mapped
    simp only [pages, PGSIZE] at hn
    omega
  unfold uvmalloc
  rw [wp_ite]
  split
  · next hlt => exact hshrink hlt
  next hge =>
  rw [pgRoundUp_eq hsz, wp_bind]
  refine wp_forUp (I := fun a t => ∃ m, a = m * PGSIZE ∧ pages oldsz ≤ m ∧
      (m = pages oldsz ∨ (m - 1) * PGSIZE < newsz) ∧ ∃ X', Rep L X' t T ∧
      Grown s T t r (pages oldsz) m (fun _ => PTE_R ||| PTE_U ||| xperm) ∧
      Filled X X' t T r (pages oldsz) m fun _ => some Bytes.zero)
    (by decide) ⟨pages oldsz, rfl, le_refl _, Or.inl rfl, X, h, Grown.refl, .refl⟩ ?_ ?_
  · rintro a t hlt ⟨m, rfl, hle, -, X', ht, hg, hf⟩
    have hm : m ≤ 32768 := ht.le_pages (hg.mapped hu.mapped)
    have hm' : m < USERPAGES := Nat.lt_of_le_of_lt hm (by decide)
    simp only [wp_bind]
    refine wp_kalloc ht (fun s1 hs1 hstill => ?_) fun mem s1 hst hnot hX hs1 hstill => ?_
    · -- out of memory
      simp only [if_true, wp_bind]
      exact wp_undo (hs1.forget hf.le) hroot (hg.calm hstill.calm) hu (hf.unpinned.calm hstill.calm) fun _ s' hs' hc => hfail s' hs' hc
    · have := hf.le.isOpen (r := r)
      obtain ⟨hs2, hstill2, -⟩ := hs1.zero (c := mem) (Finset.mem_insert_self mem T.pages) hX
      have hs2 := hs2.pin (x := some Bytes.zero) (o := .temp mem) Owner.data_temp (Rep.own_add (c := mem)) fun b hb =>
        (Function.update_self ..).trans (Option.some.inj hb)
      simp only [if_neg hst.ne_zero, wp_bind, wp_memset]
      refine wp_mapNext (f := fun _ => PTE_R ||| PTE_U ||| xperm) hs2 hroot hg (hstill.trans hstill2).calm hle hu hnot hm'
        hperm hR (fun s3 hs3 hc => ?_) fun s3 hs3 hl3 hg3 => ?_
      · -- no page for the page table
        simp only [show ((-1 : Int) ≠ 0) from by decide, ne_eq, not_false_eq_true, if_true, wp_bind]
        refine kfree_temp (hs3.forget (Pins.le_set hX)) (Finset.mem_insert_self mem T.pages) hX fun s4 hs4 hstill4 => ?_
        rw [Temps.drop_add hnot] at hs4 hstill4
        have hc4 := hc.trans hstill4.calm
        exact wp_undo (hs4.forget hf.le) hroot (hg.calm hc4) hu (hf.unpinned.calm hc4) fun _ s' hs' hc => hfail s' hs' hc
      · simp only [ne_eq, not_true_eq_false, if_false, wp_pure, Option.elim]
        have hf3 := hf.next hle hX (leaf_perm hst.1 hst.lt hperm hR).1.pa_eq hl3 (hg.ne_fresh hs1 hstill hu.mapped hm')
        refine ⟨?_, m + 1, by rw [Nat.add_mul, Nat.one_mul], by omega, Or.inr hlt, _, hs3, hg3, hf3⟩
        simp only [PGSIZE]
        omega
  · rintro a t hend ⟨m, rfl, hle, hlast, X', ht, hg, hf⟩
    have hm : m = pages newsz := by
      have := pages_mono (Nat.le_of_not_lt hge)
      simp only [pages, PGSIZE] at *
      omega
    rw [hm] at hg hf
    exact hok t X' (Nat.le_of_not_lt hge) ht hg hf

theorem wp_unmapAll [X.Open r] {Q : Unit → Sys → Prop} (h : Rep L X s T) (hroot : root s T r = some p) (hn : n ≤ USERPAGES)
    (hall : ∀ v < n, lv s T r v ≠ 0) (hX : Unpinned X s T r 0 n) (hQ : ∀ s', Rep L X s' T → Cleared s T s' r 0 n → Q () s') :
    wp (uvmunmap L p 0 n true) Q (Looked L) s := by
  have key := wp_uvmunmap (v := 0) (n := n) (b := true) (Q := Q) h hroot ?_ (fun _ => by omega) nofun
    (fun w _ hw => hall w (by omega)) (fun _ w h1 h2 => hX w h1 (by omega)) fun s' hs' hcl => ?_
  · rwa [Nat.zero_mul] at key
  · have : USERPAGES ≤ MAXVA / PGSIZE := by decide
    omega
  · rw [Nat.zero_add] at hcl
    exact hQ s' hs' hcl

def flagsAt (s : Sys) (T : Temps) (r : Tab) (v : Nat) : Nat := pteFlags (lv s T r v)

theorem Rep.flagsAt_eq (h : Rep L X s T) {v : Nat} (hv : lv s T r v ≠ 0) :
    ∃ pa, Pte (lv s T r v) pa (flagsAt s T r v) ∧ has (flagsAt s T r v) PTE_V = true ∧
      has (flagsAt s T r v) PTE_R = true := by
  rcases h.leaf r v with h0 | ⟨pa, f, hpte, hV, hR⟩
  · exact absurd h0 hv
  · rw [flagsAt, show pteFlags (lv s T r v) = f from hpte.flags_eq]
    exact ⟨pa, hpte, hV, hR⟩

theorem wp_uvmcopy {Q : Int → Sys → Prop} {r' : Tab} [X.Open r'] {p' sz : Nat} (h : Rep L X s T) (hroot : root s T r = some p)
    (hroot' : root s T r' = some p') (hne : r ≠ r') (hu : UserTo s T r (pages sz)) (hu' : UserTo s T r' 0)
    (hfail : ∀ s', Rep L X s' T → Calm s T s' T → Q (-1) s')
    (hok : ∀ s' X', Rep L X' s' T → Grown s T s' r' 0 (pages sz) (flagsAt s T r) →
      Filled X X' s' T r' 0 (pages sz) (fun v => X (pte2pa (lv s T r v))) → Q 0 s') :
    wp (uvmcopy L p p' sz) Q (Looked L) s := by
  have hn : pages sz ≤ 32768 := h.le_pages hu.mapped
  unfold uvmcopy
  rw [wp_bind]
  refine wp_forUp (I := fun a t => ∃ m, a = m * PGSIZE ∧ m ≤ pages sz ∧ ∃ X', Rep L X' t T ∧
      Grown s T t r' 0 m (flagsAt s T r) ∧ Filled X X' t T r' 0 m fun v => X (pte2pa (lv s T r v))) (by decide)
    ⟨0, rfl, Nat.zero_le _, X, h, Grown.refl, .refl⟩ ?_ ?_
  · rintro a t hlt ⟨m, rfl, hle, X', ht, hg, hf⟩
    have hdiv : m * PGSIZE / PGSIZE = m := Nat.mul_div_cancel m (by decide)
    have hm : m < pages sz := by
      simp only [pages, PGSIZE] at hlt ⊢
      omega
    have hm' : m < USERPAGES := Nat.lt_of_lt_of_le hm (Nat.le_trans hn (by decide))
    have hlv : lv t T r m = lv s T r m := hg.old r m fun he => hne he.1
    obtain ⟨pa, hpte, hV, hR⟩ := h.flagsAt_eq (hu.mapped m hm)
    -- what is left to do after a failure: take the pages of the child away again
    have hundo : ∀ s1, Rep L X' s1 T → Calm t T s1 T → wp (uvmunmap L p' 0 (m * PGSIZE / PGSIZE) true)
        (fun _ s' => Q (-1) s') (Looked L) s1 := by
      intro s1 hs1 hc
      have hg1 := hg.calm hc
      rw [hdiv]
      refine wp_unmapAll (hs1.forget hf.le) ((root_congr hg1.kept rfl).trans hroot') (by omega) (hg1.mapped hu'.mapped)
        (hf.unpinned.calm hc) fun s' hs' hcl => ?_
      exact hfail s' hs' (hg1.undo (fun v h1 h2 => hu'.rest v h1 (by omega)) hcl)
    have hva : m * PGSIZE < MAXVA := by
      simp only [MAXVA, PGSIZE]
      omega
    have hmapped : lv t T r (m * PGSIZE / PGSIZE) ≠ 0 := by
      rw [hdiv, hlv]
      exact hu.mapped m hm
    simp only [wp_bind]
    refine wp_walk_mapped ht ((root_congr hg.kept rfl).trans hroot) hva hmapped fun q hq => ?_
    rw [hdiv] at hq
    obtain ⟨hword, hq0⟩ := ht.word_lv hq
    have hvalid : has (lv s T r m) PTE_V = true := (hpte.has_eq (by decide)).trans hV
    simp only [hdiv, if_neg hq0, wp_bind, wp_load, hword, hlv, hvalid, Bool.not_true, Bool.false_eq_true, if_false]
    refine wp_kalloc ht (fun s1 hs1 hstill => ?_) fun mem s1 hst hnot hX hs1 hstill => ?_
    · simp only [if_true, wp_pure, Option.elim]
      exact hundo s1 hs1 hstill.calm
    · have := hf.le.isOpen (r := r')
      obtain ⟨hs2, hent⟩ := hs1.write (b := s1.page (pte2pa (lv s T r m))) (Rep.own_add (c := mem)) Owner.data_temp hX
      -- what is known of the page copied is known of the copy
      have hs2 := hs2.pin (x := X (pte2pa (lv s T r m))) (o := .temp mem) Owner.data_temp (Rep.own_add (c := mem)) fun b hb =>
        (Function.update_self ..).trans (hs1.pins _ b (hf.le.page _ b hb)).1
      simp only [if_neg hst.ne_zero, wp_bind, wp_copyPage]
      refine wp_mapNext (f := flagsAt s T r) hs2 hroot' hg (hstill.trans ⟨kept_setPage, rfl, hent⟩).calm
        (Nat.zero_le m) hu' hnot hm' hpte.flags hR (fun s3 hs3 hc => ?_) fun s3 hs3 hl3 hg3 => ?_
      · simp only [show ((-1 : Int) ≠ 0) from by decide, ne_eq, not_false_eq_true, if_true, wp_bind]
        refine kfree_temp (hs3.forget (Pins.le_set hX)) (Finset.mem_insert_self mem T.pages) hX fun s4 hs4 hstill4 => ?_
        rw [Temps.drop_add hnot] at hs4 hstill4
        simp only [wp_pure, Option.elim]
        exact hundo s4 hs4 (hc.trans hstill4.calm)
      · simp only [ne_eq, not_true_eq_false, if_false, wp_pure, Option.elim]
        have hf3 := hf.next (Nat.zero_le m) hX (leaf_perm hst.1 hst.lt hpte.flags hR).1.pa_eq hl3 (hg.ne_fresh hs1 hstill hu'.mapped hm')
        refine ⟨?_, m + 1, by rw [Nat.add_mul, Nat.one_mul], hm, _, hs3, hg3, hf3⟩
        simp only [PGSIZE]
        omega
  · rintro a t hend ⟨m, rfl, hle, X', ht, hg, hf⟩
    have hm : m = pages sz := by
      simp only [pages, PGSIZE] at *
      omega
    rw [hm] at hg hf
    exact hok t X' ht hg hf

end

end Xv6.Vm
