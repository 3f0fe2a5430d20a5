import Xv6.Vm.Calls
import Xv6.Vm.Exec

/-! `exec` keeps every address space in order. The new page table belongs to the operation until it takes the place of
    the old one. -/

namespace Xv6.Vm
open Lib

/-- The operation's page table `p` maps `n` user pages; nothing else has changed since `s`. -/
structure Image (L : Layout) (X : Pins) (s : Sys) (T : Temps) (p n tf : Nat) (t : Sys) : Prop where
  rep : Rep L X t ⟨some p, T.pages⟩
  unpinned : Unpinned X t ⟨some p, T.pages⟩ none 0 n
  kept : Kept s t
  slots : ∀ i v, lv t ⟨some p, T.pages⟩ (some i) v = lv s T (some i) v
  space : Space L t ⟨some p, T.pages⟩ none n tf

def AllUser (T : Temps) (p n : Nat) (t : Sys) : Prop := ∀ v < n, has (lv t ⟨some p, T.pages⟩ none v) PTE_U = true

section
variable {L : Layout} {X X' : Pins} {s t t' : Sys} {T : Temps} {i : Slot} {p n m tf : Nat} {ip : File}

theorem Image.still (h : Image L X s T p n tf t) (hs : Rep L X t' ⟨some p, T.pages⟩)
    (hst : Still t ⟨some p, T.pages⟩ t' ⟨some p, T.pages⟩) : Image L X s T p n tf t' :=
  ⟨hs, h.unpinned.calm hst.calm, h.kept.trans hst.kept, fun i v => (hst.calm.lv (some i) v).trans (h.slots i v),
    h.space.congr (hst.calm.lv none)⟩

theorem AllUser.still (h : AllUser T p n t) (hst : Still t ⟨some p, T.pages⟩ t' ⟨some p, T.pages⟩) : AllUser T p n t' :=
  fun v hv => by rw [hst.calm.lv]; exact h v hv

theorem Image.root (_ : Image L X s T p n tf t) : root t ⟨some p, T.pages⟩ none = some p := rfl

theorem Image.le_pages (h : Image L X s T p n tf t) : n ≤ 32768 := h.rep.le_pages h.space.user.mapped

theorem Image.all_unpinned (h : Image L X s T p n tf t) : Unpinned X t ⟨some p, T.pages⟩ none 0 USERPAGES := by
  intro v h1 h2
  by_cases hv : v < n
  · exact h.unpinned v h1 hv
  · rw [h.space.user.rest v (by omega) h2]
    exact h.rep.unpinned_zero

theorem target_pa {e pa : Nat} (h : target e = some pa) : pte2pa e = pa := by
  unfold target at h
  split at h
  · exact Option.some.inj h
  · cases h

/-! ### Segments -/

theorem Image.wp_walkaddr {Q : Nat → Sys → Prop} {va : Nat} (h : Image L X s T p n tf t) (hu : AllUser T p n t)
    (hva : va / PGSIZE < n) (hQ : ∀ pa, pa ≠ 0 → target (lv t ⟨some p, T.pages⟩ none (va / PGSIZE)) = some pa → Q pa t) :
    wp (walkaddr p va) Q (Looked L) t := by
  have hn := h.le_pages
  have hmapped := h.space.user.mapped _ hva
  refine Vm.wp_walkaddr h.rep h.root (fun hmiss => ?_) fun pa hpa _ => ?_
  · refine (hmiss ?_ ?_ (hu _ hva)).elim
    · simp only [MAXVA, PGSIZE] at *
      omega
    · rcases h.rep.leaf none (va / PGSIZE) with h0 | ⟨pa, f, hpte, hV, -⟩
      · exact absurd h0 hmapped
      · exact (hpte.has_eq (by decide)).trans hV
  · have hU : USERPAGES = 67108862 := by decide
    have hown : own t ⟨some p, T.pages⟩ (.user none (va / PGSIZE)) = some pa := by
      simp only [own, show va / PGSIZE < USERPAGES by omega, if_true, hpa]
    exact hQ pa (h.rep.stock hown).ne_zero hpa

theorem wp_loadseg {Q : Int → Sys → Prop} {va off sz : Nat} (h : Image L X s T p n tf t) (hu : AllUser T p n t)
    (hfit : va + sz ≤ n * PGSIZE) (hQ : ∀ x t', Image L X s T p n tf t' → AllUser T p n t' → Q x t') :
    wp (loadseg p va ip off sz) Q (Looked L) t := by
  have hn := h.le_pages
  unfold loadseg
  rw [wp_bind]
  refine wp_forUp (I := fun _ t' => Image L X s T p n tf t' ∧ AllUser T p n t') (by decide) ⟨h, hu⟩ ?_ ?_
  · rintro a t1 hlt ⟨h1, hu1⟩
    have hva : (va + a) % 2 ^ 64 / PGSIZE < n := by
      simp only [PGSIZE] at *
      omega
    rw [wp_bind]
    refine h1.wp_walkaddr hu1 hva fun pa hne hpa => ?_
    have hU : USERPAGES = 67108862 := by decide
    generalize (if sz - a < PGSIZE then sz - a else PGSIZE) = k
    obtain ⟨hw, hst⟩ := h1.rep.writeUser (l := ip.readi ((off + a) % 2 ^ 32) k)
      (show (va + a) % 2 ^ 64 / PGSIZE < USERPAGES by omega) hpa (show 0 < PGSIZE by decide)
      (target_pa hpa ▸ h1.unpinned _ (Nat.zero_le _) hva)
    rw [Nat.add_zero] at hw hst
    have h2 := h1.still hw hst
    have hu2 := hu1.still hst
    simp only [if_neg hne, wp_bind, wp_change, wp_ite, wp_pure]
    split
    · exact hQ _ _ h2 hu2
    · refine ⟨?_, h2, hu2⟩
      simp only [PGSIZE] at *
      omega
  · rintro a t1 - ⟨h1, hu1⟩
    exact hQ _ _ h1 hu1

theorem field_lt {l : List UInt8} {o k : Nat} : field l o k < 256 ^ k := by
  induction k generalizing o with
  | zero => exact Nat.one_pos
  | succ k ih =>
    have hbyte : (l.getD o 0).toNat < 256 := UInt8.toNat_lt _
    have hrest : field l (o + 1) k < 256 ^ k := ih
    rw [field, Nat.pow_succ]
    omega

theorem flags2perm_lt {flags : Nat} : flags2perm flags < 1024 := by
  unfold flags2perm
  split <;> split <;> decide

theorem Image.grow {perm : Nat → Nat} {c : Nat → Option Page} (h : Image L X s T p n tf t) (hs : Rep L X' t' ⟨some p, T.pages⟩)
    (hg : Grown t ⟨some p, T.pages⟩ t' none n m perm) (hf : Filled X X' t' ⟨some p, T.pages⟩ none n m c) (hle : n ≤ m) :
    Image L X s T p m tf t' := by
  refine ⟨hs.forget hf.le, fun v h1 h2 => ?_, h.kept.trans hg.kept,
    fun i v => (hg.old (some i) v fun he => Option.some_ne_none i he.1).trans (h.slots i v), h.space.grow hs hg hle⟩
  by_cases hv : n ≤ v
  · exact hf.unpinned v hv h2
  · rw [hg.old none v (by omega)]
    exact h.unpinned v h1 (by omega)

theorem Image.calm (h : Image L X s T p n tf t) (hs : Rep L X t' ⟨some p, T.pages⟩)
    (hc : Calm t ⟨some p, T.pages⟩ t' ⟨some p, T.pages⟩) : Image L X s T p n tf t' :=
  ⟨hs, h.unpinned.calm hc, h.kept.trans hc.kept, fun i v => (hc.lv (some i) v).trans (h.slots i v), h.space.congr (hc.lv none)⟩

theorem AllUser.grow {perm : Nat → Nat} (h : AllUser T p n t) (hg : Grown t ⟨some p, T.pages⟩ t' none n m perm)
    (hperm : ∀ v, has (perm v) PTE_U = true) : AllUser T p m t' := by
  intro v hv
  by_cases hn : n ≤ v
  · obtain ⟨pa, hpte⟩ := hg.new v hn hv
    rw [hpte.has_eq (by decide), has_union, hperm v, Bool.true_or]
  · rw [hg.old none v (by omega)]
    exact h v (by omega)

theorem has_user {x : Nat} : has (PTE_R ||| PTE_U ||| x) PTE_U = true := by
  rw [has_union, has_union, show has PTE_U PTE_U = true from rfl, Bool.or_true, Bool.true_or]

theorem wp_loadSegments [X.Open none] {Q : Nat × Bool → Sys → Prop} {rounds off sz : Nat} (h : Image L X s T p (pages sz) tf t)
    (hu : AllUser T p (pages sz) t)
    (hQ : ∀ sz' ok t', Image L X s T p (pages sz') tf t' → AllUser T p (pages sz') t' → Q (sz', ok) t') :
    wp (loadSegments L p ip rounds off sz) Q (Looked L) t := by
  induction rounds generalizing off sz t with
  | zero => exact hQ sz true t h hu
  | succ rounds ih =>
    unfold loadSegments
    dsimp only
    simp only [wp_ite, wp_bind]
    generalize hph : Proghdr.ofBytes (ip.readi off Proghdr.size) = ph
    have hvaddr : ph.vaddr < 2 ^ 64 := by
      rw [← hph]
      exact field_lt
    have hmemsz : ph.memsz < 2 ^ 64 := by
      rw [← hph]
      exact field_lt
    split
    · exact hQ sz false t h hu
    split
    · exact ih h hu
    split
    · exact hQ sz false t h hu
    next hmem =>
    split
    · exact hQ sz false t h hu
    next hwrap =>
    split
    · exact hQ sz false t h hu
    have hsum : (ph.vaddr + ph.memsz) % 2 ^ 64 = ph.vaddr + ph.memsz := by omega
    rw [hsum]
    have load : ∀ sz1 t1, ph.vaddr + ph.memsz ≤ sz1 → Image L X s T p (pages sz1) tf t1 → AllUser T p (pages sz1) t1 →
        wp (loadseg p ph.vaddr ip (ph.off % 2 ^ 32) (ph.filesz % 2 ^ 32)) (fun r t2 => if r < 0 then
          wp (pure (sz1, false)) Q (Looked L) t2
          else wp (loadSegments L p ip rounds ((off + Proghdr.size) % 2 ^ 32) sz1) Q (Looked L) t2) (Looked L) t1 := by
      intro sz1 t1 hle h1 hu1
      refine wp_loadseg h1 hu1 ?_ fun x t2 h2 hu2 => ?_
      · have hfile := Nat.mod_le ph.filesz (2 ^ 32)
        simp only [pages, PGSIZE]
        omega
      · split
        · exact hQ sz1 false t2 h2 hu2
        · exact ih h2 hu2
    refine wp_uvmalloc h.rep h.root h.space.user flags2perm_lt (fun t1 ht1 hc => ?_) (fun hshrink => ?_)
      fun t1 X' hle ht1 hg hf => ?_
    · rw [if_pos rfl]
      exact hQ sz false t1 (h.calm ht1 hc) fun v hv => by rw [hc.lv]; exact hu v hv
    · rw [if_neg (by omega)]
      exact load sz t hshrink.le h hu
    · have h1 := h.grow ht1 hg hf (pages_mono hle)
      have hu1 := hu.grow hg fun _ => has_user
      split
      · next h0 =>
        obtain rfl : sz = ph.vaddr + ph.memsz := by omega
        exact hQ _ false t1 h1 hu1
      · exact load _ t1 (le_refl _) h1 hu1

theorem wp_pushStrings {Q : Option (Nat × List Nat) → Sys → Prop} {stackbase argc sp : Nat} {argv : List Nat}
    (h : Image L X s T p n tf t) (hQ : ∀ x t', Image L X s T p n tf t' → Q x t') :
    wp (pushStrings p stackbase argv argc sp) Q (Looked L) t := by
  induction argv generalizing argc sp t Q with
  | nil => exact hQ _ t h
  | cons arg argv ih =>
    rw [pushStrings, wp_ite]
    split
    · exact hQ none t h
    rw [wp_bind, wp_view]
    generalize t.cstr arg = str
    dsimp only
    rw [wp_ite]
    split
    · exact hQ none t h
    rw [wp_bind]
    refine wp_copyout h.rep h.root h.space.kernelTop h.all_unpinned fun x t1 ht1 hst => ?_
    have h1 := h.still ht1 hst
    rw [wp_ite]
    split
    · exact hQ none t1 h1
    · rw [wp_bind]
      exact ih h1 fun x t2 h2 => hQ _ t2 h2

theorem wp_pushArgs {Q : Option Nat → Sys → Prop} {sz : Nat} {argv : List Nat} (h : Image L X s T p n tf t)
    (hQ : ∀ x t', Image L X s T p n tf t' → Q x t') : wp (pushArgs p sz argv) Q (Looked L) t := by
  unfold pushArgs
  generalize sz - USERSTACK * PGSIZE = stackbase
  dsimp only
  rw [wp_bind]
  refine wp_pushStrings h fun x t1 h1 => ?_
  rcases x with - | ⟨sp, ustack⟩
  · exact hQ none t1 h1
  · dsimp only
    rw [wp_ite]
    split
    · exact hQ none t1 h1
    rw [wp_bind]
    refine wp_copyout h1.rep h1.root h1.space.kernelTop h1.all_unpinned fun x t2 ht2 hst => ?_
    have h2 := h1.still ht2 hst
    rw [wp_ite]
    split
    · exact hQ none t2 h2
    · exact hQ _ t2 h2

theorem Image.clear {v x : Nat} (h : Image L X s T p n tf t) (hv : v < n) (hs : Rep L X t' ⟨some p, T.pages⟩)
    (hl : Leafed t ⟨some p, T.pages⟩ t' ⟨some p, T.pages⟩ none v x) (hx : x ≠ 0)
    (hpa : pte2pa x = pte2pa (lv t ⟨some p, T.pages⟩ none v)) : Image L X s T p n tf t' := by
  have hn := h.le_pages
  have hU : USERPAGES = 67108862 := by decide
  have hold : ∀ r w, ¬(r = none ∧ w = v) → lv t' ⟨some p, T.pages⟩ r w = lv t ⟨some p, T.pages⟩ r w := fun r w hw => by
    rw [hl.lv, if_neg hw]
  refine ⟨hs, fun w h1 h2 => ?_, h.kept.trans hl.kept, fun i w => ?_, ⟨fun w hw => ?_, fun w h1 h2 => ?_⟩, ?_, ?_, fun w hw => ?_⟩
  · rw [hl.lv]
    split
    · next hat =>
      rw [hpa, ← hat.2]
      exact h.unpinned w h1 h2
    · exact h.unpinned w h1 h2
  · rw [hold (some i) w fun he => Option.some_ne_none i he.1]
    exact h.slots i w
  · rw [hl.lv]
    split
    · exact hx
    · exact h.space.user.mapped w hw
  · rw [hold none w (by omega)]
    exact h.space.user.rest w h1 h2
  · rw [hold none _ (by omega)]
    exact h.space.frame
  · rw [hold none _ (by omega)]
    exact h.space.tramp
  · rw [hold none w (by omega)]
    exact h.space.top w hw

/-! ### The end of exec -/

theorem Image.root_ne_zero (h : Image L X s T p n tf t) : p ≠ 0 :=
  (h.rep.stock (o := .node none 0 0) (by rw [own_node (by omega), nd_root]; rfl)).ne_zero

structure Execed (L : Layout) (X : Pins) (s : Sys) (T : Temps) (r : Int) (t : Sys) : Prop where
  inv : Inv L t T
  failed : r < 0 → Rep L X t T ∧ Calm s T t T

theorem Inv.execed {r : Int} (h0 : Inv L s T) (h : Rep L X t T) (hc : Calm s T t T) : Execed L X s T r t :=
  ⟨h0.calm (h.forgetAll) hc, fun _ => ⟨h, hc⟩⟩

theorem wp_execBad [X.Open none] {sz : Nat} (h0 : Inv L s T) (htab : T.tab = none) (h : Image L X s T p (pages sz) tf t) :
    wp (execBad L p sz) (Execed L X s T) (Looked L) t := by
  have hT : (⟨none, T.pages⟩ : Temps) = T := by rw [← htab]
  unfold execBad
  rw [wp_bind]
  refine wp_procFreepagetable h.rep h.root h.space h.unpinned fun t1 ht1 hem => ?_
  obtain ⟨hend, hlv⟩ := ht1.endTab rfl hem.barren
  rw [hT] at hend hlv
  refine h0.execed hend ⟨h.kept.trans (hem.kept.trans (kept_called.trans kept_freed)), rfl, fun r v => ?_⟩
  cases r with
  | none => rw [lv_notab htab, lv_notab htab]
  | some i => rw [hlv, hem.other (some i) v (Option.some_ne_none i), h.slots]

theorem Rep.install [X.Open none] [X.Open (some i)] {q : Nat} (h : Rep L X t ⟨some p, T.pages⟩) (hp : p ≠ 0)
    (hq : (t.proc i).pagetable = q) (hq0 : q ≠ 0) :
    Rep L X (t.setProc i ((t.proc i).setPagetable p)) ⟨some q, T.pages⟩ ∧
      ∀ r v, lv (t.setProc i ((t.proc i).setPagetable p)) ⟨some q, T.pages⟩ r v =
        lv t ⟨some p, T.pages⟩ (Equiv.swap none (some i) r) v := by
  have hptr : (⟨some p, T.pages⟩ : Temps).tab = ptr ((t.proc i).setPagetable p).pagetable := (if_neg hp).symm
  have hptr' : (⟨some q, T.pages⟩ : Temps).tab = ptr (t.proc i).pagetable := by
    rw [hq]
    exact (if_neg hq0).symm
  exact ⟨h.swapTab hptr hptr' rfl rfl, fun r v => ent_swap hptr hptr'⟩

/-- The process after `exec` has committed and before it frees the old page table. -/
structure Switched (L : Layout) (s : Sys) (T : Temps) (i : Slot) (p n : Nat) (sz : Nat) (t : Sys) : Prop where
  rep : Rep L .none t ⟨some (s.proc i).pagetable, T.pages⟩
  other : ∀ j, j ≠ i → t.proc j = s.proc j
  slots : ∀ j v, j ≠ i → lv t ⟨some (s.proc i).pagetable, T.pages⟩ (some j) v = lv s T (some j) v
  old : ∀ v, lv t ⟨some (s.proc i).pagetable, T.pages⟩ none v = lv s T (some i) v
  space : Space L t ⟨some (s.proc i).pagetable, T.pages⟩ (some i) n (s.proc i).trapframe
  pagetable : (t.proc i).pagetable = p
  trapframe : (t.proc i).trapframe = (s.proc i).trapframe
  size : (t.proc i).sz = sz
  state : (t.proc i).state = (s.proc i).state

theorem Dressed.switched {sz : Nat} (h : Switched L s T i p n sz t) (hs : Rep L .none t' ⟨some (s.proc i).pagetable, T.pages⟩)
    (hd : Dressed t ⟨some (s.proc i).pagetable, T.pages⟩ t' i) {sz' : Nat} (hsz : (t'.proc i).sz = sz')
    (hst : (t'.proc i).state = (t.proc i).state) : Switched L s T i p n sz' t' where
  rep := hs
  other j hj := (hd.apart.proc j hj).trans (h.other j hj)
  slots j v hj := (hd.lv (some j) v).trans (h.slots j v hj)
  old v := (hd.lv none v).trans (h.old v)
  space := h.space.congr (hd.lv (some i))
  pagetable := hd.pagetable.trans h.pagetable
  trapframe := hd.trapframe.trans h.trapframe
  size := hsz
  state := hst.trans h.state

theorem Switched.oldSpace {sz : Nat} (h : Switched L s T i p n sz t)
    (hsp : Space L s T (some i) (pages (s.proc i).sz) (s.proc i).trapframe) :
    Space L t ⟨some (s.proc i).pagetable, T.pages⟩ none (pages (s.proc i).sz) (s.proc i).trapframe := by
  refine ⟨⟨fun v hv => ?_, fun v h1 h2 => ?_⟩, ?_, ?_, fun v hv => ?_⟩ <;> rw [h.old]
  · exact hsp.user.mapped v hv
  · exact hsp.user.rest v h1 h2
  · exact hsp.frame
  · exact hsp.tramp
  · exact hsp.top v hv

theorem Switched.finish {sz : Nat} (h : Switched L s T i p (pages sz) sz t) (h0 : Inv L s T) (htab : T.tab = none)
    (hi : (s.proc i).state ≠ .unused) (hp : p ≠ 0) :
    wp (procFreepagetable L (s.proc i).pagetable (s.proc i).sz) (fun _ t' => Inv L t' T) (Looked L) t := by
  have hT : (⟨none, T.pages⟩ : Temps) = T := by rw [← htab]
  obtain ⟨-, htf, hsp⟩ := (h0.slots i).used hi
  refine wp_procFreepagetable h.rep rfl (h.oldSpace hsp) (fun _ _ _ => rfl) fun t1 ht1 hem => ?_
  obtain ⟨hend, hlv⟩ := ht1.endTab rfl hem.barren
  rw [hT] at hend hlv
  have hproc : ∀ j, (t1.called.freed (s.proc i).pagetable).proc j = t.proc j := congrFun hem.kept.proc
  have hlv' : ∀ j v, lv (t1.called.freed (s.proc i).pagetable) T (some j) v =
      lv t ⟨some (s.proc i).pagetable, T.pages⟩ (some j) v := fun j v => by
    rw [hlv, hem.other (some j) v (Option.some_ne_none j)]
  refine ⟨hend, fun j => ?_⟩
  by_cases hj : j = i
  · subst hj
    refine ⟨fun hun => ?_, fun _ => ?_⟩ <;> rw [hproc] at *
    · rw [h.state] at hun
      exact absurd hun hi
    · rw [h.pagetable, h.trapframe, h.size]
      exact ⟨hp, htf, h.space.congr (hlv' j)⟩
  · exact (h0.slots j).congr ((hproc j).trans (h.other j hj)) fun v => (hlv' j v).trans (h.slots j v hj)

def committed (t : Sys) (i : Slot) (path : List UInt8) (pagetable sz sp entry : Nat) : Sys :=
  let tf := (t.proc i).trapframe
  let t1 := t.setWord (tf + tfA1) sp
  let t2 := t1.setProc i ((t1.proc i).setName (safestrcpy (lastElem path) 16))
  let t3 := t2.setProc i ((t2.proc i).setPagetable pagetable)
  let t4 := t3.setProc i ((t3.proc i).setSz sz)
  (t4.setWord (tf + tfEpc) entry).setWord (tf + tfSp) sp

theorem wp_execCommit_iff {Q : Unit → Sys → Prop} {E : Stop → Sys → Prop} {sz sp entry : Nat} {path : List UInt8} :
    wp (execCommit L i path p sz sp entry) Q E t ↔
      wp (procFreepagetable L (t.proc i).pagetable (t.proc i).sz) Q E (committed t i path p sz sp entry) := by
  unfold execCommit committed
  simp only [wp_bind, wp_view, wp_store, wp_onProc]

theorem Image.switched {sz sp entry : Nat} {path : List UInt8} (h0 : Inv L s T) (hi : (s.proc i).state ≠ .unused)
    (h : Image L X s T p (pages sz) (s.proc i).trapframe t) :
    Switched L s T i p (pages sz) sz (committed t i path p sz sp entry) := by
  obtain ⟨hpt, htf, -⟩ := (h0.slots i).used hi
  have hp := h.root_ne_zero
  have hproc : t.proc i = s.proc i := by rw [h.kept.proc]
  unfold committed
  dsimp only
  rw [hproc]
  -- up to the switch, only the trapframe and the name change
  obtain ⟨h1, d1⟩ := (h.rep.forgetAll).dressWord (j := i) (n := tfA1) (v := sp) (by rw [hproc]; exact htf) rfl (by decide)
  rw [hproc] at h1 d1
  obtain ⟨h2, d2⟩ := h1.dressField (j := i)
    (p := ((t.setWord ((s.proc i).trapframe + tfA1) sp).proc i).setName (safestrcpy (lastElem path) 16)) rfl rfl
  have st2 : (((t.setWord ((s.proc i).trapframe + tfA1) sp).setProc i (((t.setWord ((s.proc i).trapframe + tfA1)
      sp).proc i).setName (safestrcpy (lastElem path) 16))).proc i).state = (s.proc i).state := by
    rw [setProc_self, ← hproc]
    rfl
  replace d2 := d1.trans d2
  generalize (t.setWord ((s.proc i).trapframe + tfA1) sp).setProc i
    (((t.setWord ((s.proc i).trapframe + tfA1) sp).proc i).setName (safestrcpy (lastElem path) 16)) = t2 at *
  have hq : (t2.proc i).pagetable = (s.proc i).pagetable := by rw [d2.pagetable, hproc]
  obtain ⟨h3, hlv3⟩ := h2.install (T := T) hp hq hpt
  have w3 : Switched L s T i p (pages sz) (t2.proc i).sz (t2.setProc i ((t2.proc i).setPagetable p)) := by
    refine ⟨h3, fun j hj => ?_, fun j v hj => ?_, fun v => ?_, ?_, ?_, ?_, ?_, ?_⟩
    · rw [show (t2.setProc i ((t2.proc i).setPagetable p)).proc j = t2.proc j from Function.update_of_ne hj _ _,
        d2.apart.proc j hj, h.kept.proc]
    · rw [hlv3, Equiv.swap_apply_of_ne_of_ne (Option.some_ne_none j) fun he => hj (Option.some.inj he), d2.lv, h.slots]
    · rw [hlv3, Equiv.swap_apply_left, d2.lv, h.slots]
    · refine ⟨⟨fun v hv => ?_, fun v h1 h2 => ?_⟩, ?_, ?_, fun v hv => ?_⟩ <;>
        rw [hlv3, Equiv.swap_apply_right, d2.lv]
      · exact h.space.user.mapped v hv
      · exact h.space.user.rest v h1 h2
      · exact h.space.frame
      · exact h.space.tramp
      · exact h.space.top v hv
    · rw [setProc_self]
      rfl
    · rw [setProc_self, ← hproc, ← d2.trapframe]
      rfl
    · rw [setProc_self]
      rfl
    · rw [setProc_self, ← st2]
      rfl
  generalize t2.setProc i ((t2.proc i).setPagetable p) = t3 at *
  obtain ⟨h4, d4⟩ := w3.rep.dressField (j := i) (p := (t3.proc i).setSz sz) rfl rfl
  have w4 : Switched L s T i p (pages sz) sz (t3.setProc i ((t3.proc i).setSz sz)) :=
    d4.switched w3 h4 (by rw [setProc_self]; rfl) (by rw [setProc_self]; rfl)
  generalize t3.setProc i ((t3.proc i).setSz sz) = t4 at *
  obtain ⟨h5, d5⟩ := w4.rep.dressWord (j := i) (n := tfEpc) (v := entry) (by rw [w4.trapframe]; exact htf) rfl (by decide)
  have w5 := d5.switched w4 h5 w4.size rfl
  rw [w4.trapframe] at w5
  generalize t4.setWord ((s.proc i).trapframe + tfEpc) entry = t5 at *
  obtain ⟨h6, d6⟩ := w5.rep.dressWord (j := i) (n := tfSp) (v := sp) (by rw [w5.trapframe]; exact htf) rfl (by decide)
  have w6 := d6.switched w5 h6 w5.size rfl
  rw [w5.trapframe] at w6
  exact w6

theorem wp_execCommit {sz sp entry : Nat} {path : List UInt8} (h0 : Inv L s T) (htab : T.tab = none)
    (hi : (s.proc i).state ≠ .unused) (h : Image L X s T p (pages sz) (s.proc i).trapframe t) :
    wp (execCommit L i path p sz sp entry) (fun _ t' => Inv L t' T) (Looked L) t := by
  rw [wp_execCommit_iff, h.kept.proc]
  exact (h.switched h0 hi).finish h0 htab hi h.root_ne_zero

theorem Rep.clear_leaf {r : Tab} {v : Nat} (h : Rep L X t T) (hne : lv t T r v ≠ 0) :
    lv t T r v &&& (2 ^ 64 - 1 - PTE_U) ≠ 0 ∧ pte2pa (lv t T r v &&& (2 ^ 64 - 1 - PTE_U)) = pte2pa (lv t T r v) := by
  rcases h.leaf r v with h0 | ⟨pa, f, hpte, hV, -⟩
  · exact absurd h0 hne
  · exact ⟨hpte.clear.ne_zero ((has_clear (by decide)).trans hV), hpte.clear.pa_eq.trans hpte.pa_eq.symm⟩

theorem Image.stack_sizes {sz tf : Nat} (h : Image L X s T p (pages sz) tf t) :
    pgRoundUp sz = pages sz * PGSIZE ∧
    (pages sz * PGSIZE + (USERSTACK + 1) * PGSIZE) % 2 ^ 64 = (pages sz + 3) * PGSIZE ∧
    sub64 ((pages sz + 3) * PGSIZE) ((USERSTACK + 1) * PGSIZE) = pages sz * PGSIZE := by
  have hn := h.le_pages
  have hsz : sz ≤ pages sz * PGSIZE := by
    simp only [pages, PGSIZE]
    omega
  have hP : PGSIZE = 4096 := rfl
  have hS : USERSTACK = 2 := rfl
  refine ⟨pgRoundUp_eq (by simp only [PGSIZE] at hsz; omega), ?_, ?_⟩
  · rw [hP, hS]
    omega
  · unfold sub64
    rw [hP, hS]
    omega

theorem wp_execStack [X.Open none] {sz entry : Nat} {path : List UInt8} {argv : List Nat} (h0 : Inv L s T) (htab : T.tab = none)
    (hi : (s.proc i).state ≠ .unused) (h : Image L X s T p (pages sz) (s.proc i).trapframe t) :
    wp (execStack L i path argv p sz entry) (Execed L X s T) (Looked L) t := by
  have hn := h.le_pages
  have hP : PGSIZE = 4096 := rfl
  obtain ⟨hup, hnew, hguard⟩ := h.stack_sizes
  unfold execStack
  dsimp only
  rw [hup, wp_bind, hnew]
  have hpages : pages (pages sz * PGSIZE) = pages sz := pages_mul _
  refine wp_uvmalloc (r := none) h.rep h.root (by rw [hpages]; exact h.space.user) (by decide) (fun t1 ht1 hc => ?_)
    (fun hshrink => ?_) fun t1 X' hle ht1 hg hf => ?_
  · rw [if_pos rfl]
    exact wp_execBad h0 htab (by rw [hpages]; exact h.calm ht1 hc)
  · rw [hP] at hshrink
    omega
  rw [hpages, pages_mul] at hg hf
  have h1 := h.grow ht1 hg hf (by omega)
  rw [if_neg (by rw [hP]; omega), wp_bind, hguard]
  have hdiv : pages sz * PGSIZE / PGSIZE = pages sz := Nat.mul_div_cancel _ (by decide)
  have hmapped : lv t1 ⟨some p, T.pages⟩ none (pages sz) ≠ 0 := h1.space.user.mapped _ (by omega)
  refine wp_uvmclear h1.rep h1.root ?_ (by rw [hdiv]; exact hmapped) fun t2 ht2 hl => ?_
  · simp only [MAXVA, PGSIZE]
    omega
  rw [hdiv] at hl
  obtain ⟨hne, hpa⟩ := h1.rep.clear_leaf hmapped
  have h2 := h1.clear (by omega) ht2 hl hne hpa
  rw [wp_bind]
  refine wp_pushArgs h2 fun x t3 h3 => ?_
  have hpages' : pages ((pages sz + 3) * PGSIZE) = pages sz + 3 := pages_mul _
  cases x with
  | none => exact wp_execBad h0 htab (by rw [hpages']; exact h3)
  | some sp =>
    dsimp only
    refine wp_then (wp_execCommit h0 htab hi (by rw [hpages']; exact h3)) fun _ t4 h4 => ?_
    exact ⟨h4, fun hlt => absurd hlt (by omega)⟩

theorem wp_exec_header [X.Open none] {Q : Int → Sys → Prop} {namei : List UInt8 → Option File} {path : List UInt8}
    {argv : List Nat} (h : Inv L s T) (hX : Rep L X s T) (htab : T.tab = none) (hused : (s.proc i).state ≠ .unused)
    (hfail : ∀ t, Rep L X t T → Calm s T t T → Q (-1) t)
    (hload : ∀ ip ∈ namei path, ∀ p t, Image L X s T p (pages 0) (s.proc i).trapframe t →
      wp (loadSegments L p ip (Elfhdr.ofBytes (ip.readi 0 Elfhdr.size)).phnum
          ((Elfhdr.ofBytes (ip.readi 0 Elfhdr.size)).phoff % 2 ^ 32) 0)
        (fun r t' => if !r.2 then wp (execBad L p r.1) Q (Looked L) t'
          else wp (execStack L i path argv p r.1 (Elfhdr.ofBytes (ip.readi 0 Elfhdr.size)).entry) Q (Looked L) t')
        (Looked L) t) :
    wp (exec L i namei path argv) Q (Looked L) s := by
  obtain ⟨-, htf, -⟩ := (h.slots i).used hused
  have hstock : Stock L (s.proc i).trapframe := h.rep.stock (o := .frame i) (by simp only [own, ptr, if_neg htf])
  have hsame : Q (-1) s := hfail s hX .refl
  unfold exec
  cases hip : namei path with
  | none => exact hsame
  | some ip =>
    dsimp only
    simp only [wp_ite, wp_bind, wp_view]
    split
    · exact hsame
    split
    · exact hsame
    refine wp_procPagetable hX htab hstock.1 hstock.lt (fun s1 hs1 hc => ?_) fun p s1 hp hs1 hk hlv hsp => ?_
    · rw [if_pos rfl]
      exact hfail s1 hs1 hc
    rw [if_neg hp]
    have himage : Image L X s T p (pages 0) (s.proc i).trapframe s1 := by
      rw [pages_zero]
      exact ⟨hs1, fun v _ hv => absurd hv (Nat.not_lt_zero v), hk, hlv, hsp⟩
    exact hload ip hip p s1 himage

theorem wp_exec [X.Open none] {namei : List UInt8 → Option File} {path : List UInt8} {argv : List Nat} (h : Inv L s T)
    (hX : Rep L X s T) (htab : T.tab = none) (hused : (s.proc i).state ≠ .unused) :
    wp (exec L i namei path argv) (Execed L X s T) (Looked L) s := by
  refine wp_exec_header h hX htab hused (fun t ht hc => h.execed ht hc) fun ip _ p t himage => ?_
  refine wp_loadSegments himage (fun v hv => absurd hv (by rw [pages_zero]; omega)) fun sz ok s2 h2 _ => ?_
  cases ok with
  | false => exact wp_execBad h htab h2
  | true => exact wp_execStack h htab hused h2

def argPages (argv : List Nat) : Temps := ⟨none, argv.toFinset⟩

theorem argPages_append {argv : List Nat} {pa : Nat} : argPages (argv ++ [pa]) = (argPages argv).add pa := by
  simp only [argPages, Temps.add, List.toFinset_append, List.toFinset_cons, List.toFinset_nil, insert_empty_eq,
    Finset.union_comm argv.toFinset, Finset.insert_eq]

theorem argPages_cons {argv : List Nat} {pa : Nat} (h : pa ∉ argv) : (argPages (pa :: argv)).drop pa = argPages argv := by
  simp only [argPages, Temps.drop, List.toFinset_cons]
  rw [Finset.erase_insert (by rwa [List.mem_toFinset])]

theorem Inv.writeTemp {pa : Nat} {l : List UInt8} (h : Inv L s T) (hpa : pa ∈ T.pages) : Inv L (s.setBytes pa l) T := by
  have hown : own s T (.temp pa) = some pa := Rep.own_temp hpa
  have hdown : pgRoundDown (pa + 0) = pa := pgRoundDown_add (h.rep.stock hown).1 (by decide)
  rw [Nat.add_zero] at hdown
  obtain ⟨hw, hent⟩ := h.rep.write (b := (s.page pa).write (pa % PGSIZE) l.length fun i => l.getD i 0) hown nofun rfl
  rw [Sys.setBytes, hdown]
  exact h.calm hw ⟨kept_setPage, rfl, fun r v => hent r 2 v (le_refl 2)⟩

theorem wp_fetchaddr {Q : Int × Nat → Sys → Prop} {addr : Nat} (h : Inv L s T) (hi : (s.proc i).state = .runnable)
    (hQ : ∀ x, Q x s) : wp (fetchaddr i addr) Q (Looked L) s := by
  obtain ⟨hroot, -⟩ := h.space (i := i) (by rw [hi]; decide)
  unfold fetchaddr
  simp only [wp_bind, wp_view, wp_ite]
  split
  · exact hQ _
  · refine wp_copyin h.rep hroot fun x => ?_
    split <;> exact hQ _

theorem wp_fetchstr {Q : Int × List UInt8 → Sys → Prop} {addr max : Nat} (h : Inv L s T)
    (hi : (s.proc i).state = .runnable) (hQ : ∀ x, Q x s) : wp (fetchstr i addr max) Q (Looked L) s := by
  obtain ⟨hroot, -⟩ := h.space (i := i) (by rw [hi]; decide)
  unfold fetchstr
  simp only [wp_bind, wp_view]
  exact wp_copyinstr h.rep hroot hQ

theorem wp_fetchArgs {Q : List Nat × Bool → Sys → Prop} {uargv rounds : Nat} {argv : List Nat}
    (h : Inv L s (argPages argv)) (hi : (s.proc i).state = .runnable) (hnd : argv.Nodup)
    (hQ : ∀ argv' ok s', Inv L s' (argPages argv') → (s'.proc i).state = .runnable → argv'.Nodup → Q (argv', ok) s') :
    wp (fetchArgs i uargv rounds argv) Q (Looked L) s := by
  induction rounds generalizing argv s with
  | zero => exact hQ argv false s h hi hnd
  | succ rounds ih =>
    unfold fetchArgs
    rw [wp_bind]
    refine wp_fetchaddr h hi fun x => ?_
    obtain ⟨r, uarg⟩ := x
    simp only [wp_ite, wp_bind]
    split
    · exact hQ argv false s h hi hnd
    split
    · exact hQ argv true s h hi hnd
    refine wp_kalloc h.rep (fun s1 hs1 hst => ?_) fun pa s1 hstock hnot _ hs1 hst => ?_
    · rw [if_pos rfl]
      exact hQ argv false s1 (h.calm hs1 hst.calm) (by rw [hst.kept.proc]; exact hi) hnd
    have hi1 : (s1.proc i).state = .runnable := by rw [hst.kept.proc]; exact hi
    have hfresh : pa ∉ argv := fun hc => hnot (List.mem_toFinset.mpr hc)
    have hnd1 : (argv ++ [pa]).Nodup := List.nodup_append.mpr ⟨hnd, List.nodup_singleton pa, fun a ha b hb => by
      rw [List.mem_singleton.mp hb]
      exact fun he => hfresh (he ▸ ha)⟩
    have h1 : Inv L s1 (argPages (argv ++ [pa])) := by
      rw [argPages_append]
      exact ⟨hs1, fun j => (h.slots j).congr (by rw [hst.kept.proc]) (hst.calm.lv (some j))⟩
    rw [if_neg hstock.ne_zero]
    refine wp_fetchstr h1 hi1 fun x => ?_
    obtain ⟨r, l⟩ := x
    have h2 := h1.writeTemp (l := l) (List.mem_toFinset.mpr (List.mem_append_right argv (List.mem_singleton_self pa)))
    simp only [wp_change]
    split
    · exact hQ _ false _ h2 hi1 hnd1
    · exact ih h2 hi1 hnd1

theorem wp_freeArgs {argv : List Nat} (h : Inv L s (argPages argv)) (hnd : argv.Nodup) :
    wp (freeArgs L argv) (fun _ s' => Inv L s' Temps.empty) (Looked L) s := by
  induction argv generalizing s with
  | nil => exact h
  | cons pa argv ih =>
    obtain ⟨hpa, hnd⟩ := List.nodup_cons.mp hnd
    rw [freeArgs, wp_bind]
    refine kfree_temp h.rep (List.mem_toFinset.mpr (List.mem_cons_self ..)) rfl fun s1 hs1 hst => ?_
    rw [argPages_cons hpa] at hs1 hst
    exact ih ⟨hs1, fun j => (h.slots j).congr (by rw [hst.kept.proc]) (hst.calm.lv (some j))⟩ hnd

theorem inv_sysExec {namei : List UInt8 → Option File} {upath uargv : Nat} (h : Inv L s Temps.empty)
    (hi : (s.proc i).state = .runnable) :
    wp (sysExec L i namei upath uargv) (fun _ s' => Inv L s' Temps.empty) (Looked L) s := by
  unfold sysExec
  rw [wp_bind]
  refine wp_fetchstr h hi fun x => ?_
  obtain ⟨r, path⟩ := x
  simp only [wp_ite, wp_bind]
  split
  · exact h
  refine wp_fetchArgs h hi List.nodup_nil fun argv ok s1 h1 hi1 hnd => ?_
  cases ok with
  | false =>
    simp only [Bool.false_eq_true, if_false, wp_pure]
    exact wp_freeArgs h1 hnd
  | true =>
    simp only [if_true]
    exact wp_post (wp_exec h1 h1.rep rfl (by rw [hi1]; decide)) fun _ _ h2 => wp_freeArgs h2.inv hnd

end

end Xv6.Vm
