import Xv6.Vm.ExecSpec

/-! The state that `main` leaves behind: `kinit`, the pages that the kernel keeps, and the first process. -/

namespace Xv6.Vm
open Lib

noncomputable def rest (L : Layout) (p : Nat) : Finset Nat :=
  (Finset.range PHYSTOP).filter fun q => q % PGSIZE = 0 ∧ L.kend ≤ q ∧ p ≤ q

section
variable {L : Layout} {s s' : Sys} {T : Temps} {p q : Nat}

theorem mem_rest_iff : q ∈ rest L p ↔ Stock L q ∧ p ≤ q := by
  simp only [rest, Finset.mem_filter, Finset.mem_range, Stock]
  tauto

attribute [irreducible] rest

theorem rest_zero : rest L 0 = rest L (pgRoundUp L.kend) := by
  ext q
  have hle : L.kend ≤ PHYSTOP := L.kend_le
  rw [PHYSTOP_eq] at hle
  simp only [mem_rest_iff, Stock, pgRoundUp, PGSIZE]
  omega

theorem rest_next (hp : p % PGSIZE = 0) : (rest L p).erase p = rest L (p + PGSIZE) := by
  ext q
  simp only [Finset.mem_erase, mem_rest_iff, Stock, PGSIZE] at hp ⊢
  omega

theorem rest_end (hp : p % PGSIZE = 0) (hlast : PHYSTOP + 1 - PGSIZE ≤ p) : rest L p = ∅ := by
  ext q
  have hP := PHYSTOP_eq
  simp only [mem_rest_iff, Stock, PGSIZE, Finset.notMem_empty, iff_false] at hp hlast ⊢
  omega

theorem Cold.rep (h : Cold s) : Rep L .none s ⟨none, rest L 0⟩ := by
  have hroot : ∀ r, root s ⟨none, rest L 0⟩ r = none := fun r => by
    cases r with
    | none => rfl
    | some i => simp only [root, h.proc, ptr, if_true]
  have hent : ∀ r d k, ent s ⟨none, rest L 0⟩ r d k = 0 := fun r d k => ent_of_noroot (hroot r)
  have hown : ∀ o pa, own s ⟨none, rest L 0⟩ o = some pa ↔ o = .temp pa ∧ Stock L pa := by
    intro o pa
    cases o with
    | node r d k =>
      cases d with
      | zero => simp [own, nd, hroot]
      | succ d => simp [own, nd, hent]
    | user r v => simp [own, hent]
    | frame i => simp [own, h.proc, ptr]
    | pipe pa => simp [own, h.pipes]
    | kernel pa => simp [own, h.kernel]
    | temp q =>
      simp only [own, Owner.temp.injEq]
      split
      · next hst =>
        constructor
        · intro he
          obtain rfl := Option.some.inj he
          exact ⟨rfl, (mem_rest_iff.mp hst).1⟩
        · rintro ⟨rfl, -⟩
          rfl
      · next hst =>
        constructor
        · intro he
          cases he
        · rintro ⟨rfl, hst'⟩
          exact absurd (mem_rest_iff.mpr ⟨hst', Nat.zero_le _⟩) hst
  refine ⟨⟨[], h.freelist, ?_⟩, pinned_none, fun r d k _ => Or.inl (hent r d k), fun r v => Or.inl (hent r 2 v), ?_, ?_⟩
  · exact {
      nodup := List.nodup_nil
      free_mem := by rintro _ ⟨⟩
      own_mem := fun o p ho => ((hown o p).mp ho).2
      inj := fun o o' p ho ho' => ((hown o p).mp ho).1.trans ((hown o' p).mp ho').1.symm
      held := fun _ _ _ => List.not_mem_nil
      cover := fun p hp => Or.inr ⟨.temp p, (hown _ p).mpr ⟨rfl, hp⟩⟩ }
  · rw [h.pipes]
    exact List.nodup_nil
  · rw [h.kernel]
    exact List.nodup_nil

theorem Cold.slots (h : Cold s) (i : Slot) : SlotOk L s T i :=
  ⟨fun _ => by rw [h.proc]; exact ⟨rfl, rfl, rfl⟩, fun hne => absurd (by rw [h.proc]) hne⟩

theorem wp_kinit {Q : Unit → Sys → Prop} (h : Inv L s ⟨none, rest L 0⟩) (hQ : ∀ s', Inv L s' Temps.empty → Q () s') :
    wp (kinit L) Q (Looked L) s := by
  have hP := PHYSTOP_eq
  have hle := L.kend_le
  unfold kinit freerange
  rw [wp_bind]
  refine wp_forUp (I := fun p s' => p % PGSIZE = 0 ∧ L.kend ≤ p ∧ Inv L s' ⟨none, rest L p⟩) (by decide) ⟨?_, ?_, ?_⟩ ?_ ?_
  · simp only [pgRoundUp, PGSIZE]
    omega
  · simp only [pgRoundUp, PGSIZE]
    omega
  · rw [← rest_zero]
    exact h
  · rintro p t hlt ⟨hp, hk, ht⟩
    rw [wp_bind]
    have hmem : p ∈ rest L p := mem_rest_iff.mpr ⟨⟨hp, hk, by simp only [PGSIZE] at hlt; omega⟩, le_refl p⟩
    refine kfree_temp ht.rep hmem rfl fun t1 ht1 hst => ?_
    rw [show (⟨none, rest L p⟩ : Temps).drop p = ⟨none, rest L (p + PGSIZE)⟩ by
      simp only [Temps.drop, rest_next hp]] at ht1 hst
    refine ⟨?_, ?_, by omega, ht1, fun i => (ht.slots i).congr (by rw [hst.kept.proc]) (hst.calm.lv (some i))⟩
    · simp only [PGSIZE] at hlt ⊢
      omega
    · simp only [PGSIZE] at hp ⊢
      omega
  · rintro p t hge ⟨hp, -, ht⟩
    rw [rest_end hp hge] at ht
    exact hQ t ht

def Sys.keep (s : Sys) (pa : Nat) : Sys := { s with kernel := pa :: s.kernel }

theorem root_keep {pa : Nat} {r : Tab} {T' : Temps} (htab : T'.tab = T.tab) : root (s.keep pa) T' r = root s T r := by
  cases r with
  | none => exact htab
  | some i => rfl

theorem ent_keep {pa : Nat} {r : Tab} {d k : Nat} {T' : Temps} (htab : T'.tab = T.tab) :
    ent (s.keep pa) T' r d k = ent s T r d k := by
  simp only [ent, root_keep htab]
  rfl

theorem Rep.keep {pa : Nat} (h : Rep L .none s T) (hpa : pa ∈ T.pages) : Rep L .none (s.keep pa) (T.drop pa) := by
  have hnot : pa ∉ s.kernel := fun hm => by
    have hk : own s T (.kernel pa) = some pa := by simp only [own, hm, if_true]
    cases h.inj hk (Rep.own_temp hpa)
  obtain ⟨l, hl, hex⟩ := h.exact
  refine ⟨⟨l, hl, hex.move (o := .temp pa) (u := .kernel pa) (Rep.own_temp hpa) ?_ Rep.own_drop ?_ fun x hx hx' => ?_⟩,
    pinned_none, fun r d k hd => ?_, fun r v => ?_, h.pipes, List.nodup_cons.mpr ⟨hnot, h.kernel⟩⟩
  · simp only [own, hnot, if_false]
  · simp only [own, Sys.keep, List.mem_cons, true_or, if_true]
  · cases x with
    | node r d k =>
      cases d with
      | zero => simp only [own, nd, root_keep Temps.drop_tab]
      | succ d => simp only [own, nd, ent_keep Temps.drop_tab]
    | user r v => simp only [own, ent_keep Temps.drop_tab]
    | kernel q =>
      have hne : q ≠ pa := fun he => hx' (by rw [he])
      simp only [own, Sys.keep, List.mem_cons, hne, false_or]
    | temp q =>
      have hne : q ≠ pa := fun he => hx (by rw [he])
      simp only [own, Temps.drop, Finset.mem_erase, hne, ne_eq, not_false_eq_true, true_and]
    | _ => rfl
  · rw [ent_keep Temps.drop_tab]
    exact h.inner r d k hd
  · rw [ent_keep Temps.drop_tab]
    exact h.leaf r v

theorem wp_takePages {Q : Unit → Sys → Prop} {n : Nat} (h : Inv L s Temps.empty)
    (hQ : ∀ s', Inv L s' Temps.empty → Q () s') : wp (takePages n) Q (fun _ _ => True) s := by
  induction n generalizing s with
  | zero => exact hQ s h
  | succ n ih =>
    rw [takePages]
    refine wp_seq (wp_kalloc h.rep (fun s1 _ _ => ?_) fun pa s1 hst hnot _ hs1 hstill => ?_) fun _ _ _ => trivial
    · simp only [wp_bind, if_true, wp_halt]
    · simp only [wp_bind, if_neg hst.ne_zero, wp_change]
      have hkeep := hs1.keep (Finset.mem_insert_self pa _)
      rw [Temps.drop_add hnot] at hkeep
      refine ih ⟨hkeep, fun i => (h.slots i).congr ?_ fun v => ?_⟩
      · exact congrFun hstill.kept.proc i
      · exact (ent_keep Temps.add_tab.symm).trans (hstill.calm.lv (some i) v)

theorem wp_uvmfirst {Q : Unit → Sys → Prop} {r : Tab} (h : Rep L .none s T) (hroot : root s T r = some p) (hu : UserTo s T r 0)
    (hlost : ∀ s' mem, Rep L .none s' (T.add mem) → Calm s T s' (T.add mem) → Q () s')
    (hok : ∀ s', Rep L .none s' T → Grown s T s' r 0 1 (fun _ => PTE_W ||| PTE_R ||| PTE_X ||| PTE_U) → Q () s') :
    wp (uvmfirst p initcode) Q (fun _ _ => True) s := by
  unfold uvmfirst
  rw [if_neg (by decide)]
  refine wp_seq (wp_kalloc h (fun s1 _ _ => ?_) fun mem s1 hst hnot hX hs1 hstill => ?_) fun _ _ _ => trivial
  · simp only [wp_bind, if_true, wp_halt]
  · simp only [wp_bind, if_neg hst.ne_zero, wp_memset, wp_change]
    obtain ⟨hz, hstill2, -⟩ := hs1.zero (Finset.mem_insert_self mem _) hX
    have hcalm := (hstill.trans hstill2).calm
    have hpte := (leaf_perm hst.1 hst.lt (f := PTE_W ||| PTE_R ||| PTE_X ||| PTE_U) (by decide) (by decide)).1
    have h0 : lv (s1.setPage mem (Bytes.fill 0)) (T.add mem) r (0 / PGSIZE) = 0 := by
      rw [hcalm.lv]
      exact hu.rest _ (Nat.zero_le _) (by decide)
    have key := wp_mapUser (Q := fun _ s2 => Q () (s2.setBytes mem initcode)) hz (hcalm.root.trans hroot)
      (Nat.zero_mod _) h0 (show PTE_W ||| PTE_R ||| PTE_X ||| PTE_U < 1024 by decide) (by decide) (fun s2 hs2 hc => ?_)
      (by decide) (Finset.mem_insert_self mem _) fun s2 hs2 hl => ?_
    · exact wp_mono key (fun _ _ ht => ht) fun _ _ _ => trivial
    · -- the page is not mapped
      have hdown : pgRoundDown (mem + 0) = mem := pgRoundDown_add hst.1 (by decide)
      rw [Nat.add_zero] at hdown
      obtain ⟨hw, hent⟩ := hs2.write (b := (s2.page mem).write (mem % PGSIZE) initcode.length fun i => initcode.getD i 0)
        Rep.own_add Owner.data_temp rfl
      rw [Sys.setBytes, hdown]
      exact hlost _ mem hw ((hcalm.trans hc).trans ⟨kept_setPage, rfl, fun r v => hent r 2 v (le_refl 2)⟩)
    · rw [Temps.drop_add hnot] at hs2 hl
      have hleaf := hcalm.leafed hl
      have hlv : lv s2 T r 0 = pa2pte mem ||| (PTE_W ||| PTE_R ||| PTE_X ||| PTE_U) ||| PTE_V := by
        rw [hleaf.lv, if_pos ⟨rfl, (Nat.zero_div _).symm⟩]
      obtain ⟨hw, hst2⟩ := hs2.writeUser (l := initcode) (v := 0) (by decide) (by rw [hlv]; exact hpte.target_eq rfl)
        (show 0 < PGSIZE by decide) rfl
      rw [Nat.add_zero] at hw hst2
      have hg : Grown s T s2 r 0 (0 + 1) (fun _ => PTE_W ||| PTE_R ||| PTE_X ||| PTE_U) :=
        Grown.refl.next (le_refl 0) hst.1 hst.lt (by decide) hleaf
      refine hok _ hw ⟨hg.kept.trans hst2.kept, fun v h1 h2 => ?_, fun r' v hv => ?_⟩
      · rw [hst2.calm.lv]
        exact hg.new v h1 h2
      · rw [hst2.calm.lv]
        exact hg.old r' v hv

theorem wp_first {j : Slot} (h : Rep L .none s T) (hne : (s.proc j).trapframe ≠ 0) :
    wp (do
      onProc j (·.setSz PGSIZE)
      store ((s.proc j).trapframe + tfEpc) 0
      store ((s.proc j).trapframe + tfSp) PGSIZE
      onProc j (·.setName [0x69, 0x6e, 0x69, 0x74, 0x63, 0x6f, 0x64, 0x65])
      onProc j (·.setState .runnable))
      (fun _ s' => Rep L .none s' T ∧ Dressed s T s' j ∧ (s'.proc j).sz = PGSIZE ∧ (s'.proc j).state = .runnable)
      (Looked L) s := by
  obtain ⟨h1, d1⟩ := h.dressField (j := j) (p := (s.proc j).setSz PGSIZE) rfl rfl
  have p1 : ((s.setProc j ((s.proc j).setSz PGSIZE)).proc j).sz = PGSIZE := by rw [setProc_self]; rfl
  simp only [wp_bind, wp_onProc, wp_store]
  rw [← d1.trapframe] at hne ⊢
  generalize s.setProc j ((s.proc j).setSz PGSIZE) = s1 at *
  obtain ⟨h2, d2⟩ := h1.dressWord (j := j) hne rfl (n := tfEpc) (v := 0) (by decide)
  obtain ⟨h3, d3⟩ := h2.dressWord (j := j) hne rfl (n := tfSp) (v := PGSIZE) (by decide)
  rw [d2.trapframe] at h3 d3
  have p3 : (((s1.setWord ((s1.proc j).trapframe + tfEpc) 0).setWord ((s1.proc j).trapframe + tfSp) PGSIZE).proc j).sz =
      PGSIZE := p1
  replace d3 := d1.trans (d2.trans d3)
  generalize (s1.setWord ((s1.proc j).trapframe + tfEpc) 0).setWord ((s1.proc j).trapframe + tfSp) PGSIZE = s3 at *
  generalize ([0x69, 0x6e, 0x69, 0x74, 0x63, 0x6f, 0x64, 0x65] : List UInt8) = name
  obtain ⟨h4, d4⟩ := h3.dressField (j := j) (p := (s3.proc j).setName name) rfl rfl
  obtain ⟨h5, d5⟩ := h4.dressField (j := j)
    (p := ((s3.setProc j ((s3.proc j).setName name)).proc j).setState .runnable) rfl rfl
  refine ⟨h5, d3.trans (d4.trans d5), ?_, ?_⟩
  · simp only [setProc_self]
    exact p3
  · rw [setProc_self]
    rfl

theorem Fresh.first {j : Slot} {s2 s3 : Sys} (h : Inv L s Temps.empty) (ha : Apart s Temps.empty s2 Temps.empty j)
    (hf : Fresh L s2 Temps.empty j) (hs3 : Rep L .none s3 Temps.empty) (hg : Grown s2 Temps.empty s3 (some j) 0 1 fun _ =>
      PTE_W ||| PTE_R ||| PTE_X ||| PTE_U) (hs' : Rep L .none s' Temps.empty) (hd : Dressed s3 Temps.empty s' j)
    (hsz : (s'.proc j).sz = PGSIZE) (hst : (s'.proc j).state = .runnable) : Inv L s' Temps.empty := by
  have hproc : s3.proc j = s2.proc j := by rw [hg.kept.proc]
  have ha3 : Apart s2 Temps.empty s3 Temps.empty j := ⟨fun k _ => by rw [hg.kept.proc], hg.kept.initproc, hg.kept.pipes,
    hg.kept.kernel, fun k v hk => hg.old _ v fun he => hk (Option.some.inj he.1)⟩
  refine h.only hs' (ha.trans (ha3.trans hd.apart)) ⟨fun hun => ?_, fun _ => ?_⟩
  · rw [hst] at hun
    cases hun
  · rw [hd.pagetable, hd.trapframe, hsz, hproc, show pages PGSIZE = 1 from rfl]
    exact ⟨hf.pagetable, hf.trapframe, (hf.space.grow hs3 hg (by decide)).congr (hd.lv (some j))⟩

def Sys.setInit (s : Sys) (j : Slot) : Sys := { s with initproc := j }

theorem Rep.setInit {j : Slot} (h : Rep L .none s T) :
    Rep L .none (s.setInit j) T ∧ ∀ r d k, ent (s.setInit j) T r d k = ent s T r d k :=
  h.reproc (show (s.setInit j).page = s.page from rfl) rfl (fun _ => rfl) (fun _ => rfl) rfl rfl

theorem Inv.setInit {j : Slot} (h : Inv L s T) : Inv L (s.setInit j) T := by
  obtain ⟨hs, hent⟩ := h.rep.setInit (j := j)
  exact ⟨hs, fun i => (h.slots i).congr rfl fun v => hent (some i) 2 v⟩

theorem wp_userinit (h : Inv L s Temps.empty) :
    wp (userinit L) (fun _ s' => lv s' Temps.empty (some s'.initproc) 0 ≠ 0 → Inv L s' Temps.empty) (fun _ _ => True) s := by
  unfold userinit
  refine wp_seq (wp_allocproc (fun _ _ => inferInstance) h.rep rfl h.slots (fun s' _ _ _ => trivial) fun j s1 hun hs1 ha hf _ _ => ?_) fun _ _ _ => trivial
  have h0 : Inv L (s.setInit j) Temps.empty := h.setInit
  obtain ⟨hs2, hent⟩ := hs1.setInit (j := j)
  have ha2 : Apart (s.setInit j) Temps.empty (s1.setInit j) Temps.empty j := by
    refine ⟨ha.proc, rfl, ha.pipes, ha.kernel, fun i v hi => ?_⟩
    rw [lv, hent, lv, (h.rep.setInit (j := j)).2]
    exact ha.lv i v hi
  have hf2 : Fresh L (s1.setInit j) Temps.empty j :=
    ⟨hf.state, hf.pagetable, hf.trapframe, hf.sz, hf.space.congr fun v => hent (some j) 2 v⟩
  have hinit : (s1.setInit j).initproc = j := rfl
  rw [wp_bind, wp_change]
  change wp _ _ _ (s1.setInit j)
  generalize s1.setInit j = s2 at *
  rw [wp_bind, wp_view, wp_bind]
  -- the rest writes no page-table page, whether the page was mapped or not
  have tail : ∀ s3 T', Kept s2 s3 → Rep L .none s3 T' → (∀ s', Rep L .none s' T' → Dressed s3 T' s' j → (s'.proc j).sz = PGSIZE →
      (s'.proc j).state = .runnable → s'.initproc = j →
        lv s' Temps.empty (some s'.initproc) 0 ≠ 0 → Inv L s' Temps.empty) → wp (do
        onProc j (·.setSz PGSIZE)
        store ((s2.proc j).trapframe + tfEpc) 0
        store ((s2.proc j).trapframe + tfSp) PGSIZE
        onProc j (·.setName [0x69, 0x6e, 0x69, 0x74, 0x63, 0x6f, 0x64, 0x65])
        onProc j (·.setState .runnable)) (fun _ s' => lv s' Temps.empty (some s'.initproc) 0 ≠ 0 →
          Inv L s' Temps.empty) (fun _ _ => True) s3 := by
    intro s3 T' hk hs3 hpost
    have key := wp_first (j := j) hs3 (by rw [hk.proc]; exact hf2.trapframe)
    rw [hk.proc] at key
    refine wp_mono key ?_ fun _ _ _ => trivial
    rintro - s' ⟨hs', hd, hsz, hst⟩
    exact hpost s' hs' hd hsz hst (by rw [hd.apart.initproc, hk.initproc, hinit])
  refine wp_uvmfirst hs2 (root_slot hf2.pagetable) hf2.space.user (fun s3 mem hs3 hc => ?_) fun s3 hs3 hg => ?_
  · refine tail s3 _ hc.kept hs3 fun s' hs' hd _ _ hi hne => absurd ?_ hne
    rw [hi]
    refine (ent_congr ?_ (fun _ _ _ _ _ => rfl) (le_refl 2)).trans ((hd.lv (some j) 0).trans ((hc.lv (some j) 0).trans ?_))
    · rfl
    · exact hf2.space.user.rest 0 (Nat.zero_le _) (by decide)
  · exact tail s3 _ hg.kept hs3 fun s' hs' hd hsz hst _ _ => hf2.first h0 ha2 hs3 hg hs' hd hsz hst

/-- The state when the first process starts: `main` has returned, and `uvmfirst` has mapped the process's page. -/
def Booted (L : Layout) (s : Sys) : Prop :=
  (∃ s₀ n, Cold s₀ ∧ boot L n s₀ = .ok () s) ∧ lv s Temps.empty (some s.initproc) 0 ≠ 0

theorem Booted.inv (h : Booted L s) : Inv L s Temps.empty := by
  obtain ⟨⟨s₀, n, hcold, hrun⟩, hpage⟩ := h
  have key : wp (boot L n) (fun _ s' => lv s' Temps.empty (some s'.initproc) 0 ≠ 0 → Inv L s' Temps.empty)
      (fun _ _ => True) s₀ := by
    unfold boot
    refine wp_seq (wp_kinit ⟨hcold.rep, hcold.slots⟩ fun s1 h1 => ?_) fun _ _ _ => trivial
    refine wp_seq (wp_takePages h1 fun s2 h2 => ?_) fun _ _ _ => trivial
    exact wp_userinit h2
  rw [wp, hrun] at key
  exact key hpage

end

end Xv6.Vm
