import Xv6.Vm.UserSpec

/-! `uvmclear`, and the copies between the kernel and user memory: they reach user pages only. -/

namespace Xv6.Vm
open Lib

/-- Above the user pages, table `r` maps nothing for the user. -/
def KernelTop (s : Sys) (T : Temps) (r : Tab) : Prop := ∀ v, USERPAGES ≤ v → has (lv s T r v) PTE_U = false

section
variable {L : Layout} {X : Pins} {s s' : Sys} {T T' : Temps} {r : Tab} {p va : Nat}

theorem Still.refl : Still s T s T := ⟨Kept.refl s, rfl, fun _ _ _ _ => rfl⟩

theorem KernelTop.calm (h : KernelTop s T r) (hc : Calm s T s' T') : KernelTop s' T' r := fun v hv => by
  rw [hc.lv]
  exact h v hv

theorem pa2pte_clear {pa : Nat} (h : pa < 2 ^ 52) : pa2pte pa &&& (2 ^ 64 - 1 - PTE_U) = pa2pte pa := by
  apply Nat.eq_of_testBit_eq
  intro i
  rw [pa2pte_eq (by omega), Nat.testBit_and]
  by_cases hi : i < 64
  · rw [Nat.testBit_shiftLeft]
    by_cases h10 : 10 ≤ i
    · have hm : (2 ^ 64 - 1 - PTE_U).testBit i = true := by
        have : ∀ j < 64, 10 ≤ j → (2 ^ 64 - 1 - PTE_U).testBit j = true := by decide
        exact this i hi h10
      rw [hm, Bool.and_true]
    · simp [h10]
  · have hlt : (pa / 4096) <<< 10 < 2 ^ i := by
      refine Nat.lt_of_lt_of_le ?_ (Nat.pow_le_pow_right (by omega) (Nat.le_of_not_lt hi))
      rw [Nat.shiftLeft_eq]
      omega
    rw [Nat.testBit_lt_two_pow hlt, Bool.false_and]

theorem Pte.clear {e pa f : Nat} (h : Pte e pa f) :
    Pte (e &&& (2 ^ 64 - 1 - PTE_U)) pa (f &&& (2 ^ 64 - 1 - PTE_U)) := by
  refine ⟨h.aligned, h.lt, Nat.lt_of_le_of_lt Nat.and_le_left h.flags, ?_⟩
  rw [h.eq, Nat.and_or_distrib_right, pa2pte_clear h.lt]

theorem has_clear {f g : Nat} (hg : g &&& (2 ^ 64 - 1 - PTE_U) = g) : has (f &&& (2 ^ 64 - 1 - PTE_U)) g = has f g := by
  unfold has
  rw [Nat.and_assoc, Nat.and_comm (2 ^ 64 - 1 - PTE_U), hg]

theorem wp_uvmclear [X.Open r] {Q : Unit → Sys → Prop} (h : Rep L X s T) (hroot : root s T r = some p) (hva : va < MAXVA)
    (hmapped : lv s T r (va / PGSIZE) ≠ 0)
    (hQ : ∀ s', Rep L X s' T → Leafed s T s' T r (va / PGSIZE) (lv s T r (va / PGSIZE) &&& (2 ^ 64 - 1 - PTE_U)) → Q () s') :
    wp (uvmclear p va) Q (Looked L) s := by
  unfold uvmclear
  rw [wp_bind]
  refine wp_walk_mapped h hroot hva hmapped fun q hq => ?_
  obtain ⟨hword, hne⟩ := h.word_lv hq
  rcases h.leaf r (va / PGSIZE) with h0 | ⟨pa, f, hpte, hV, hR⟩
  · exact absurd h0 hmapped
  have hV' : has (f &&& (2 ^ 64 - 1 - PTE_U)) PTE_V = true := (has_clear (by decide)).trans hV
  have hR' : has (f &&& (2 ^ 64 - 1 - PTE_U)) PTE_R = true := (has_clear (by decide)).trans hR
  have he : Entry s T r 2 (va / PGSIZE) q (lv s T r (va / PGSIZE) &&& (2 ^ 64 - 1 - PTE_U)) :=
    Entry.ofLeaf hq (Or.inr ⟨pa, _, hpte.clear, hV', hR'⟩)
  simp only [if_neg hne, wp_bind, wp_load, hword, wp_store]
  refine hQ _ (h.setLeaf he (Or.inr ?_)) ((h.stored he rfl).leafed kept_setWord rfl)
  rw [hpte.clear.target_eq hV', hpte.target_eq hV]

theorem wp_walkaddr {Q : Nat → Sys → Prop} (h : Rep L X s T) (hroot : root s T r = some p)
    (hmiss : (va < MAXVA → has (lv s T r (va / PGSIZE)) PTE_V = true → has (lv s T r (va / PGSIZE)) PTE_U = true →
      False) → Q 0 s)
    (hfound : ∀ pa, target (lv s T r (va / PGSIZE)) = some pa → has (lv s T r (va / PGSIZE)) PTE_U = true → Q pa s) :
    wp (walkaddr p va) Q (Looked L) s := by
  unfold walkaddr
  rw [wp_ite]
  split
  · next hge => exact hmiss fun hlt => absurd hge (Nat.not_le.mpr hlt)
  next hlt =>
  rw [wp_bind]
  refine wp_walk nofun h hroot (Nat.lt_of_not_le hlt) (fun s' q hs' _ _ hq => ?_) fun s' hs' _ _ => ?_
  · obtain rfl := hs' rfl
    obtain ⟨hword, hne⟩ := h.word_lv hq
    simp only [if_neg hne, wp_bind, wp_load, hword, Bool.not_eq_true']
    split
    · next hV => exact hmiss fun _ hV' => by rw [hV] at hV'; cases hV'
    · next hV =>
      split
      · next hU => exact hmiss fun _ _ hU' => by rw [hU] at hU'; cases hU'
      · next hU =>
        refine hfound _ ?_ (by simpa using hU)
        rw [target, if_pos (by simpa using hV)]
  · obtain ⟨rfl, hn⟩ := hs' rfl
    refine hmiss fun _ hV => ?_
    rw [lv, ent_of_none hn, has_zero] at hV
    cases hV

theorem pgRoundDown_add {pa off : Nat} (hpa : pa % PGSIZE = 0) (hoff : off < PGSIZE) : pgRoundDown (pa + off) = pa := by
  simp only [pgRoundDown, PGSIZE] at *
  omega

theorem Rep.writeUser (h : Rep L X s T) {v pa off : Nat} {l : List UInt8} (hv : v < USERPAGES)
    (ht : target (lv s T r v) = some pa) (hoff : off < PGSIZE) (hX : X pa = none) :
    Rep L X (s.setBytes (pa + off) l) T ∧ Still s T (s.setBytes (pa + off) l) T := by
  have hown : own s T (.user r v) = some pa := by simp only [own, hv, if_true, ht]
  obtain ⟨hw, hent⟩ := h.write
    (b := (s.page (pgRoundDown (pa + off))).write ((pa + off) % PGSIZE) l.length fun i => l.getD i 0) hown Owner.data_user hX
  rw [Sys.setBytes, pgRoundDown_add (h.stock hown).1 hoff] at *
  exact ⟨hw, kept_setPage, rfl, hent⟩

theorem wp_copyoutFrom {Q : Int → Sys → Prop} {fuel : Nat} {src : List UInt8} (h : Rep L X s T)
    (hroot : root s T r = some p) (htop : KernelTop s T r) (hX : Unpinned X s T r 0 USERPAGES) (hfuel : src.length < fuel)
    (hQ : ∀ x s', Rep L X s' T → Still s T s' T → Q x s') : wp (copyoutFrom p fuel va src) Q (Looked L) s := by
  induction fuel generalizing s va src with
  | zero => omega
  | succ fuel ih =>
    rw [copyoutFrom, wp_ite]
    split
    · exact hQ 0 s h Still.refl
    next hlen =>
    dsimp only
    rw [wp_ite]
    split
    · exact hQ _ s h Still.refl
    next hva =>
    rw [wp_bind]
    refine wp_walk nofun h hroot (Nat.lt_of_not_le hva) (fun s' q hs' _ _ hq => ?_) fun s' hs' _ _ => ?_
    · obtain rfl := hs' rfl
      obtain ⟨hword, hne⟩ := h.word_lv hq
      simp only [if_neg hne, wp_bind, wp_load, hword]
      rw [wp_ite]
      split
      · exact hQ _ s' h Still.refl
      next hflags =>
      simp only [Bool.or_eq_true, Bool.not_eq_true', not_or, Bool.not_eq_false] at hflags
      obtain ⟨⟨hV, hU⟩, -⟩ := hflags
      have hoff : va - pgRoundDown va < PGSIZE := by
        simp only [pgRoundDown, PGSIZE]
        omega
      have hv : pgRoundDown va / PGSIZE < USERPAGES := by
        refine Nat.lt_of_not_le fun hle => ?_
        rw [htop _ hle] at hU
        cases hU
      obtain ⟨hw, hstill⟩ := h.writeUser (l := src.take (min (PGSIZE - (va - pgRoundDown va)) src.length)) hv
        (by rw [target, if_pos hV]) hoff (hX _ (Nat.zero_le _) hv)
      simp only [wp_bind, wp_change]
      refine ih hw (hstill.calm.root.trans hroot) (htop.calm hstill.calm) (hX.calm hstill.calm) ?_ fun x s'' hs'' hst => ?_
      · rw [List.length_drop]
        omega
      · exact hQ x s'' hs'' (hstill.trans hst)
    · obtain ⟨rfl, -⟩ := hs' rfl
      exact hQ _ s' h Still.refl

theorem wp_copyout {Q : Int → Sys → Prop} {src : List UInt8} (h : Rep L X s T) (hroot : root s T r = some p)
    (htop : KernelTop s T r) (hX : Unpinned X s T r 0 USERPAGES) (hQ : ∀ x s', Rep L X s' T → Still s T s' T → Q x s') :
    wp (copyout p va src) Q (Looked L) s :=
  wp_copyoutFrom h hroot htop hX (Nat.lt_succ_self _) hQ

theorem wp_copyinFrom {Q : Int × List UInt8 → Sys → Prop} {fuel len : Nat} (h : Rep L X s T)
    (hroot : root s T r = some p) (hfuel : len < fuel) (hQ : ∀ x, Q x s) :
    wp (copyinFrom p fuel va len) Q (Looked L) s := by
  induction fuel generalizing va len Q with
  | zero => omega
  | succ fuel ih =>
    rw [copyinFrom, wp_ite]
    split
    · exact hQ _
    next hlen =>
    simp only [wp_bind]
    refine wp_walkaddr h hroot (fun _ => ?_) fun pa _ _ => ?_
    · exact hQ _
    · rw [wp_ite]
      split
      · exact hQ _
      · simp only [wp_bind, wp_view]
        refine ih ?_ fun x => hQ _
        simp only [pgRoundDown, PGSIZE]
        omega

theorem wp_copyin {Q : Int × List UInt8 → Sys → Prop} {len : Nat} (h : Rep L X s T) (hroot : root s T r = some p)
    (hQ : ∀ x, Q x s) : wp (copyin p va len) Q (Looked L) s :=
  wp_copyinFrom h hroot (Nat.lt_succ_self _) hQ

theorem wp_copyinstrFrom {Q : Int × List UInt8 → Sys → Prop} {fuel max : Nat} (h : Rep L X s T)
    (hroot : root s T r = some p) (hfuel : max < fuel) (hQ : ∀ x, Q x s) :
    wp (copyinstrFrom p fuel va max) Q (Looked L) s := by
  induction fuel generalizing va max Q with
  | zero => omega
  | succ fuel ih =>
    rw [copyinstrFrom, wp_ite]
    split
    · exact hQ _
    next hlen =>
    simp only [wp_bind]
    refine wp_walkaddr h hroot (fun _ => ?_) fun pa _ _ => ?_
    · exact hQ _
    · rw [wp_ite]
      split
      · exact hQ _
      · simp only [wp_bind, wp_view]
        rw [wp_ite]
        split
        · exact hQ _
        · rw [wp_bind]
          refine ih ?_ fun x => hQ _
          simp only [pgRoundDown, PGSIZE]
          omega

theorem wp_copyinstr {Q : Int × List UInt8 → Sys → Prop} {max : Nat} (h : Rep L X s T) (hroot : root s T r = some p)
    (hQ : ∀ x, Q x s) : wp (copyinstr p va max) Q (Looked L) s :=
  wp_copyinstrFrom h hroot (Nat.lt_succ_self _) hQ

end

end Xv6.Vm
