import Xv6.Vm.ProcSpec

/-! `growproc`, `fork`, `exit`, `wait` and the calls for pipes keep every address space in order. -/

namespace Xv6.Vm
open Lib

/-- Every slot of the process table is in order. Between system calls `T` is empty: no operation holds a page. -/
structure Inv (L : Layout) (s : Sys) (T : Temps) : Prop where
  rep : Rep L .none s T
  slots : ∀ i, SlotOk L s T i

/-- Fields of process `j` that refer to no page have changed, or the contents of its trapframe. -/
structure Dressed (s : Sys) (T : Temps) (s' : Sys) (j : Slot) : Prop where
  apart : Apart s T s' T j
  lv : ∀ r v, lv s' T r v = lv s T r v
  pagetable : (s'.proc j).pagetable = (s.proc j).pagetable
  trapframe : (s'.proc j).trapframe = (s.proc j).trapframe

section
variable {L : Layout} {X : Pins} {s s' s'' : Sys} {T : Temps} {r : Tab} {i j : Slot} {n m tf : Nat}

theorem Dressed.trans (h : Dressed s T s' j) (h' : Dressed s' T s'' j) : Dressed s T s'' j :=
  ⟨h.apart.trans h'.apart, fun r v => (h'.lv r v).trans (h.lv r v), h'.pagetable.trans h.pagetable,
    h'.trapframe.trans h.trapframe⟩

theorem Rep.dressField (h : Rep L X s T) {p : Proc} (hpt : p.pagetable = (s.proc j).pagetable)
    (htf : p.trapframe = (s.proc j).trapframe) : Rep L X (s.setProc j p) T ∧ Dressed s T (s.setProc j p) j := by
  obtain ⟨hrep, hent⟩ := h.setField hpt htf
  exact ⟨hrep, setProc_apart fun i v _ => hent (some i) 2 v, fun r v => hent r 2 v, by rw [setProc_self, hpt],
    by rw [setProc_self, htf]⟩

theorem Rep.dressFrame (h : Rep L X s T) {b : Page} (hne : (s.proc j).trapframe ≠ 0) (hX : X (s.proc j).trapframe = none) :
    Rep L X (s.setPage (s.proc j).trapframe b) T ∧ Dressed s T (s.setPage (s.proc j).trapframe b) j := by
  have hown : own s T (.frame j) = some (s.proc j).trapframe := by simp only [own, ptr, if_neg hne]
  obtain ⟨hrep, hent⟩ := h.write (b := b) hown Owner.data_frame hX
  exact ⟨hrep, ⟨fun _ _ => rfl, rfl, rfl, rfl, fun i v _ => hent (some i) 2 v (le_refl 2)⟩,
    fun r v => hent r 2 v (le_refl 2), rfl, rfl⟩

theorem Rep.frame_aligned (h : Rep L X s T) (hne : (s.proc j).trapframe ≠ 0) : (s.proc j).trapframe % PGSIZE = 0 :=
  (h.stock (o := .frame j) (by simp only [own, ptr, if_neg hne])).1

theorem Rep.dressBytes (h : Rep L X s T) (hne : (s.proc j).trapframe ≠ 0) (hX : X (s.proc j).trapframe = none) {l : List UInt8} :
    Rep L X (s.setBytes (s.proc j).trapframe l) T ∧ Dressed s T (s.setBytes (s.proc j).trapframe l) j := by
  have hdown : pgRoundDown ((s.proc j).trapframe + 0) = (s.proc j).trapframe :=
    pgRoundDown_add (h.frame_aligned hne) (by decide)
  rw [Nat.add_zero] at hdown
  rw [Sys.setBytes, hdown]
  exact h.dressFrame hne hX

theorem Rep.dressWord (h : Rep L X s T) (hne : (s.proc j).trapframe ≠ 0) (hX : X (s.proc j).trapframe = none) {n v : Nat} (hn : n < PGSIZE) :
    Rep L X (s.setWord ((s.proc j).trapframe + n) v) T ∧ Dressed s T (s.setWord ((s.proc j).trapframe + n) v) j := by
  rw [Sys.setWord, pgRoundDown_add (h.frame_aligned hne) hn]
  exact h.dressFrame hne hX

theorem Inv.space (h : Inv L s T) (hi : (s.proc i).state ≠ .unused) :
    root s T (some i) = some (s.proc i).pagetable ∧
      Space L s T (some i) (pages (s.proc i).sz) (s.proc i).trapframe := by
  obtain ⟨hpt, -, hsp⟩ := (h.slots i).used hi
  exact ⟨root_slot hpt, hsp⟩

theorem Inv.only (h : Inv L s T) (hs : Rep L .none s' T) (ha : Apart s T s' T i)
    (hi : SlotOk L s' T i) : Inv L s' T := by
  refine ⟨hs, fun j => ?_⟩
  by_cases hj : j = i
  · exact hj ▸ hi
  · exact (h.slots j).apart ha hj

theorem Inv.calm (h : Inv L s T) (hs : Rep L .none s' T) (hc : Calm s T s' T) : Inv L s' T :=
  ⟨hs, fun j => (h.slots j).congr (by rw [hc.kept.proc]) (hc.lv (some j))⟩

theorem Space.grow {perm : Nat → Nat} (h : Space L s T r n tf) (hs : Rep L X s' T) (hg : Grown s T s' r n m perm)
    (hle : n ≤ m) : Space L s' T r m tf := by
  have hu : UserTo s' T r m := hg.userTo h.user hle
  have hm : m ≤ 32768 := hs.le_pages hu.mapped
  have hU : USERPAGES = 67108862 := by decide
  have hold : ∀ v, USERPAGES ≤ v → lv s' T r v = lv s T r v := fun v hv => hg.old r v (by omega)
  refine ⟨hu, ?_, ?_, fun v hv => ?_⟩
  · rw [hold _ (le_refl _)]
    exact h.frame
  · rw [hold _ (Nat.le_succ _)]
    exact h.tramp
  · rw [hold v (by omega)]
    exact h.top v hv

theorem Space.shrink (h : Space L s T r n tf) (hrep : Rep L X s T) (hc : Cleared s T s' r m n) (hle : m ≤ n) :
    Space L s' T r m tf := by
  have hn : n ≤ 32768 := hrep.le_pages h.user.mapped
  have hU : USERPAGES = 67108862 := by decide
  have hold : ∀ v, USERPAGES ≤ v → lv s' T r v = lv s T r v := fun v hv => by rw [hc.lv, if_neg (by omega)]
  refine ⟨hc.userTo h.user hle, ?_, ?_, fun v hv => ?_⟩
  · rw [hold _ (le_refl _)]
    exact h.frame
  · rw [hold _ (Nat.le_succ _)]
    exact h.tramp
  · rw [hold v (by omega)]
    exact h.top v hv

theorem Inv.resize {sz : Nat} (h : Inv L s Temps.empty) (hi : (s.proc i).state ≠ .unused) (hs : Rep L .none s' Temps.empty) (hk : Kept s s')
    (hother : ∀ j v, j ≠ i → lv s' Temps.empty (some j) v = lv s Temps.empty (some j) v)
    (hsp : Space L s' Temps.empty (some i) (pages sz) (s.proc i).trapframe) :
    Inv L (s'.setProc i ((s'.proc i).setSz sz)) Temps.empty := by
  obtain ⟨hs2, hd⟩ := hs.dressField (j := i) (p := (s'.proc i).setSz sz) rfl rfl
  have ha : Apart s Temps.empty s' Temps.empty i :=
    ⟨fun _ _ => by rw [hk.proc], hk.initproc, hk.pipes, hk.kernel, hother⟩
  have hproc : (s'.setProc i ((s'.proc i).setSz sz)).proc i = (s.proc i).setSz sz := by rw [setProc_self, hk.proc]
  obtain ⟨hpt, htf, -⟩ := (h.slots i).used hi
  refine h.only hs2 (ha.trans hd.apart) ⟨fun hun => ?_, fun _ => ?_⟩ <;> rw [hproc] at *
  · exact absurd hun hi
  · exact ⟨hpt, htf, hsp.congr (hd.lv (some i))⟩

theorem addInt_pos {sz : Nat} {n : BitVec 32} (hsz : sz ≤ 134217728) (hn : 0 < n.toInt) : sz < addInt sz n := by
  have hlt : n.toInt < 2 ^ 31 := BitVec.toInt_lt
  unfold addInt
  omega

theorem inv_growproc {n : BitVec 32} (h : Inv L s Temps.empty) (hused : (s.proc i).state ≠ .unused) :
    wp (growproc L i n) (fun _ s' => Inv L s' Temps.empty) (Looked L) s := by
  obtain ⟨hroot, hsp⟩ := h.space hused
  have hpages : pages (s.proc i).sz ≤ 32768 := h.rep.le_pages hsp.user.mapped
  have hsz : (s.proc i).sz ≤ 134217728 := by
    simp only [pages, PGSIZE] at hpages
    omega
  unfold growproc
  simp only [wp_bind, wp_view, wp_ite]
  split
  · next hpos =>
    have hlt := addInt_pos hsz hpos
    refine wp_uvmalloc h.rep hroot hsp.user (by decide) (fun s' hs' hc => ?_) (fun hshrink => ?_) fun s' X' hle hs' hg _ => ?_
    · simpa only [if_true, wp_pure] using h.calm hs' hc
    · omega
    · rw [if_neg (by omega)]
      refine h.resize hused (hs'.forgetAll) hg.kept (fun j v hj => hg.old _ v fun he => hj (Option.some.inj he.1)) ?_
      exact hsp.grow hs' hg (pages_mono hle)
  · split
    · refine wp_uvmdealloc h.rep hroot hsz (fun v _ hv => hsp.user.mapped v hv) (fun _ _ _ => rfl) fun s' hs' hc => ?_
      refine h.resize hused hs' hc.kept (fun j v hj => by rw [hc.lv, if_neg fun he => hj (Option.some.inj he.1)]) ?_
      rcases Nat.le_total (s.proc i).sz (addInt (s.proc i).sz n) with hle | hle
      · rw [Nat.min_eq_left hle]
        have hempty := pages_mono hle
        exact hsp.congr fun v => by rw [hc.lv, if_neg (by omega)]
      · rw [Nat.min_eq_right hle]
        exact hsp.shrink h.rep hc (pages_mono hle)
    · exact h

theorem pages_zero : pages 0 = 0 := by decide

theorem wp_child {z : Nat} {f : Sys → List UInt8} {n : List UInt8} (h : Rep L X s T) (hne : (s.proc j).trapframe ≠ 0)
    (hX : X (s.proc j).trapframe = none) :
    wp (do
      onProc j (·.setSz z)
      change fun t => t.setBytes (s.proc j).trapframe (f t)
      store ((s.proc j).trapframe + tfA0) 0
      onProc j (·.setName n)
      onProc j (·.setParent (some i))
      onProc j (·.setState .runnable))
      (fun _ s' => Rep L X s' T ∧ Dressed s T s' j ∧ (s'.proc j).sz = z ∧ (s'.proc j).state = .runnable) (Looked L) s := by
  obtain ⟨h1, d1⟩ := h.dressField (j := j) (p := (s.proc j).setSz z) rfl rfl
  have p1 : ((s.setProc j ((s.proc j).setSz z)).proc j).sz = z := by rw [setProc_self]; rfl
  simp only [wp_bind, wp_onProc, wp_change, wp_store]
  rw [← d1.trapframe] at hne hX ⊢
  generalize s.setProc j ((s.proc j).setSz z) = s1 at *
  obtain ⟨h2, d2⟩ := h1.dressBytes hne hX (l := f s1)
  obtain ⟨h3, d3⟩ := h2.dressWord (j := j) hne hX (n := tfA0) (v := 0) (by decide)
  rw [d2.trapframe] at h3 d3
  have p3 : (((s1.setBytes (s1.proc j).trapframe (f s1)).setWord ((s1.proc j).trapframe + tfA0) 0).proc j).sz = z := p1
  replace d3 := d1.trans (d2.trans d3)
  generalize (s1.setBytes (s1.proc j).trapframe (f s1)).setWord ((s1.proc j).trapframe + tfA0) 0 = s3 at *
  obtain ⟨h4, d4⟩ := h3.dressField (j := j) (p := (s3.proc j).setName n) rfl rfl
  obtain ⟨h5, d5⟩ := h4.dressField (j := j)
    (p := ((s3.setProc j ((s3.proc j).setName n)).proc j).setParent (some i)) rfl rfl
  obtain ⟨h6, d6⟩ := h5.dressField (j := j) (p := (((s3.setProc j ((s3.proc j).setName n)).setProc j
    (((s3.setProc j ((s3.proc j).setName n)).proc j).setParent (some i))).proc j).setState .runnable) rfl rfl
  refine ⟨h6, d3.trans (d4.trans (d5.trans d6)), ?_, ?_⟩
  · simp only [setProc_self]
    exact p3
  · rw [setProc_self]
    rfl

theorem inv_fork (h : Inv L s Temps.empty) (hi : (s.proc i).state = .runnable) :
    wp (fork L i) (fun _ s' => Inv L s' Temps.empty) (Looked L) s := by
  unfold fork
  rw [wp_bind]
  refine wp_allocproc (fun _ _ => inferInstance) h.rep rfl h.slots (fun s' hs' hok _ => ⟨hs', hok⟩) fun j s1 hun hs1 ha hf hXf _ => ?_
  have hij : i ≠ j := fun he => by rw [he, hun] at hi; cases hi
  obtain ⟨hpt, -, hsp⟩ := (((h.slots i).apart ha hij).used (by rw [ha.proc i hij, hi]; decide))
  simp only [wp_bind, wp_view]
  refine wp_uvmcopy hs1 (root_slot hpt) (root_slot hf.pagetable) (fun he => hij (Option.some.inj he)) hsp.user
    hf.space.user (fun s2 hs2 hc => ?_) fun s2 X' hs2 hg hfill => ?_
  · rw [if_pos (by decide), wp_bind]
    refine wp_giveBack hs2 (fun k _ => h.slots k) (ha.trans hc.apart)
      (fun _ => ⟨(s1.proc j).trapframe, ?_⟩) ⟨rfl, fun _ _ _ => rfl⟩ fun s3 hs3 hok _ _ => ⟨hs3, hok⟩
    rw [hc.kept.proc, hf.sz, pages_zero]
    exact hf.space.congr (hc.lv (some j))
  · have hp2 : s2.proc j = s1.proc j := by rw [hg.kept.proc]
    have hsp2 := hf.space.grow hs2 hg (Nat.zero_le _)
    have ha2 : Apart s1 Temps.empty s2 Temps.empty j := ⟨fun k _ => by rw [hg.kept.proc], hg.kept.initproc, hg.kept.pipes,
      hg.kept.kernel, fun k v hk => hg.old _ v fun he => hk (Option.some.inj he.1)⟩
    rw [if_neg (by decide)]
    have key := wp_child (i := i) (z := (s1.proc i).sz) (f := fun t => t.bytes (s1.proc i).trapframe tfSize)
      (n := safestrcpy (s1.proc i).name 16) (hs2.forgetAll) (by rw [hp2]; exact hf.trapframe) rfl
    rw [hp2] at key
    simp only [wp_bind, wp_pure] at key ⊢
    refine wp_post key ?_
    rintro - s3 ⟨hs3, hd, hsz, hst⟩
    refine h.only hs3 (ha.trans (ha2.trans hd.apart)) ⟨fun hun => ?_, fun _ => ?_⟩
    · rw [hst] at hun
      cases hun
    · rw [hd.pagetable, hd.trapframe, hsz, hp2]
      exact ⟨hf.pagetable, hf.trapframe, hsp2.congr (hd.lv (some j))⟩

theorem SlotOk.same (h : SlotOk L s T i) (hlv : ∀ v, lv s' T (some i) v = lv s T (some i) v)
    (hpt : (s'.proc i).pagetable = (s.proc i).pagetable) (htf : (s'.proc i).trapframe = (s.proc i).trapframe)
    (hsz : (s'.proc i).sz = (s.proc i).sz) (hst : (s'.proc i).state = .unused ↔ (s.proc i).state = .unused) :
    SlotOk L s' T i := by
  refine ⟨fun hun => ?_, fun hne => ?_⟩
  · rw [hpt, htf, hsz]
    exact h.unused (hst.mp hun)
  · obtain ⟨h1, h2, hsp⟩ := h.used fun hun => hne (hst.mpr hun)
    rw [hpt, htf, hsz]
    exact ⟨h1, h2, hsp.congr hlv⟩

theorem inv_exit {status : BitVec 32} (h : Inv L s Temps.empty) (hi : (s.proc i).state = .runnable) :
    wp (exit i status) (fun _ s' => Inv L s' Temps.empty) (fun e s' => Looked L e s' ∨ e = .panic "init exiting") s := by
  have hother : ∀ j, j ≠ i → (s.exit i status).proc j =
      if (s.proc j).parent = some i then (s.proc j).setParent (some s.initproc) else s.proc j :=
    fun j hj => by simp only [Sys.exit, Function.update_of_ne hj]
  have hfields : ∀ j, ((s.exit i status).proc j).pagetable = (s.proc j).pagetable ∧
      ((s.exit i status).proc j).trapframe = (s.proc j).trapframe ∧ ((s.exit i status).proc j).sz = (s.proc j).sz ∧
      (((s.exit i status).proc j).state = .unused ↔ (s.proc j).state = .unused) := by
    intro j
    by_cases hj : j = i
    · subst hj
      rw [hi]
      simp only [Sys.exit, Function.update_self]
      split <;> exact ⟨rfl, rfl, rfl, by decide⟩
    · rw [hother j hj]
      split <;> exact ⟨rfl, rfl, rfl, Iff.rfl⟩
  have hpage : (s.exit i status).page = s.page := rfl
  obtain ⟨hrep, hent⟩ := h.rep.reproc hpage rfl (fun j => (hfields j).1) (fun j => (hfields j).2.1) rfl rfl
  unfold exit
  simp only [wp_bind, wp_view, wp_ite]
  split
  · exact Or.inr rfl
  · refine ⟨hrep, fun j => ?_⟩
    obtain ⟨h1, h2, h3, h4⟩ := hfields j
    exact (h.slots j).same (fun v => hent (some j) 2 v) h1 h2 h3 h4

theorem inv_wait {addr : Nat} (h : Inv L s Temps.empty) (hi : (s.proc i).state = .runnable) :
    wp (wait L i addr) (fun _ s' => Inv L s' Temps.empty) (Looked L) s := by
  obtain ⟨hroot, hsp⟩ := h.space (i := i) (by rw [hi]; decide)
  unfold wait
  rw [wp_bind, wp_view]
  cases hfirst : firstZombie i s with
  | none => exact h
  | some j =>
    have hz : (s.proc j).state = .zombie := by
      have := List.find?_some hfirst
      simp only [Bool.and_eq_true, beq_iff_eq] at this
      exact this.2
    -- the child's page table is as it was, whatever `copyout` wrote
    have reap : ∀ s1, Rep L .none s1 Temps.empty → Still s Temps.empty s1 Temps.empty →
        wp (freeproc L j) (fun _ s' => Inv L s' Temps.empty) (Looked L) s1 := fun s1 hs1 hst => by
      refine wp_giveBack hs1 (fun k _ => h.slots k) hst.calm.apart (fun _ => ⟨(s.proc j).trapframe, ?_⟩)
        ⟨rfl, fun _ _ _ => rfl⟩ fun s2 hs2 hok _ _ => ⟨hs2, hok⟩
      rw [hst.kept.proc]
      exact (h.space (by rw [hz]; decide)).2.congr (hst.calm.lv (some j))
    simp only [wp_bind, wp_view, wp_ite, wp_pure]
    split
    · refine wp_copyout h.rep hroot hsp.kernelTop (fun _ _ _ => rfl) fun x s1 hs1 hst => ?_
      split
      · exact h.calm hs1 hst.calm
      · exact reap s1 hs1 hst
    · rw [if_neg (by decide)]
      exact reap s h.rep Still.refl

theorem Inv.setPipes {pipes : List Pipe} (hs : Rep L .none (s.setPipes pipes) Temps.empty) (hok : ∀ i, SlotOk L s T i)
    (htab : T.tab = none) : Inv L (s.setPipes pipes) Temps.empty :=
  ⟨hs, fun i => (hok i).congr rfl fun _ => ent_setPipes htab.symm⟩

theorem inv_pipealloc {f0 f1 : Bool} (h : Inv L s Temps.empty) : wp (pipealloc f0 f1) (fun _ s' => Inv L s' Temps.empty) (Looked L) s := by
  unfold pipealloc
  simp only [wp_ite, wp_bind]
  split
  · exact h
  · refine wp_kalloc h.rep (fun s' hs' hst => ?_) fun pa s' hstock hnot _ hs' hst => ?_
    · rw [if_pos rfl]
      exact h.calm hs' hst.calm
    · rw [if_neg hstock.ne_zero]
      have hnew := hs'.newPipe (x := ⟨pa, true, true⟩) (Finset.mem_insert_self pa _)
      rw [show (Temps.empty.add pa).drop pa = Temps.empty from Temps.drop_add hnot] at hnew
      exact Inv.setPipes hnew (fun i => (h.slots i).congr (by rw [hst.kept.proc]) (hst.calm.lv (some i))) rfl

theorem mem_rest {pipes : List Pipe} {pa q : Nat} :
    q ∈ (pipes.filter (·.pa != pa)).map Pipe.pa ↔ q ∈ pipes.map Pipe.pa ∧ q ≠ pa := by
  simp only [List.mem_map, List.mem_filter, bne_iff_ne]
  constructor
  · rintro ⟨pi, ⟨hpi, hne⟩, rfl⟩
    exact ⟨⟨pi, hpi, rfl⟩, hne⟩
  · rintro ⟨⟨pi, hpi, rfl⟩, hne⟩
    exact ⟨pi, ⟨hpi, hne⟩, rfl⟩

theorem Pipe.close_pa {pi : Pipe} {writable : Bool} : (pi.close writable).pa = pi.pa := by
  cases writable <;> rfl

theorem inv_pipeclose {pa : Nat} {writable : Bool} (h : Inv L s Temps.empty) :
    wp (pipeclose L pa writable) (fun _ s' => Inv L s' Temps.empty) (Looked L) s := by
  unfold pipeclose
  rw [wp_bind, wp_view]
  cases hfind : s.pipes.find? (·.pa == pa) with
  | none => exact h
  | some pi =>
    have hpa : pi.pa = pa := by simpa using List.find?_some hfind
    have hmem : pa ∈ s.pipes.map Pipe.pa := List.mem_map.mpr ⟨pi, List.mem_of_find?_eq_some hfind, hpa⟩
    have hrest : ((s.pipes.filter (·.pa != pa)).map Pipe.pa).Nodup := h.rep.pipes.sublist (List.filter_sublist.map _)
    simp only [wp_bind, wp_view, wp_ite, wp_change]
    split
    · -- both ends are closed
      have hdrop := h.rep.dropPipe hmem hrest fun q => mem_rest
      refine kfree_temp hdrop (Finset.mem_insert_self pa _) rfl fun s' hs' hst => ?_
      rw [show (Temps.empty.add pa).drop pa = Temps.empty from Temps.drop_add (Finset.notMem_empty pa)] at hs' hst
      refine ⟨hs', fun i => (h.slots i).congr (by rw [hst.kept.proc]; rfl) fun v => ?_⟩
      exact (hst.calm.lv (some i) v).trans (ent_setPipes Temps.add_tab)
    · refine Inv.setPipes (h.rep.setPipe ?_ fun q => ?_) h.slots rfl
      · rw [List.map_cons, Pipe.close_pa, hpa]
        exact List.nodup_cons.mpr ⟨fun hc => (mem_rest.mp hc).2 rfl, hrest⟩
      · rw [List.map_cons, Pipe.close_pa, hpa, List.mem_cons, mem_rest]
        by_cases hq : q = pa
        · simp only [hq, hmem, true_or]
        · simp only [hq, ne_eq, not_false_eq_true, and_true, false_or]

theorem inv_write {va : Nat} {byte : UInt8} (h : Inv L s Temps.empty) (hi : (s.proc i).state = .runnable) :
    wp (copyout (s.proc i).pagetable va [byte]) (fun _ s' => Inv L s' Temps.empty) (Looked L) s := by
  obtain ⟨hroot, hsp⟩ := h.space (i := i) (by rw [hi]; decide)
  exact wp_copyout h.rep hroot hsp.kernelTop (fun _ _ _ => rfl) fun _ s' hs' hst => h.calm hs' hst.calm

end

end Xv6.Vm
