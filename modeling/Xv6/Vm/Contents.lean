import Xv6.Vm.PageMap
import Xv6.Vm.Quiet

/-! What system calls do to the contents of user memory: the pages that a call must keep are pinned before it. -/

namespace Xv6.Vm
open Lib

/-- The flags and the bytes of the user page of process `i` at page number `v`. -/
def userPage (s : Sys) (i : Slot) (v : Nat) : Option (Nat × Page) :=
  if v < USERPAGES ∧ has (pteOf s i v) PTE_V = true then some (pteFlags (pteOf s i v), s.page (pte2pa (pteOf s i v)))
  else none

open Classical in
/-- What the owners in `K` have in their pages, with the tables in `F` frozen. -/
noncomputable def snap (s : Sys) (T : Temps) (F : Tab → Prop) (K : Owner → Prop) : Pins where
  page pa := if ∃ o, K o ∧ (∀ r d k, o = .node r d k → F r) ∧ own s T o = some pa then some (s.page pa) else none
  frozen := F

section
variable {L : Layout} {X : Pins} {s s' : Sys} {T : Temps} {r : Tab} {i : Slot} {F : Tab → Prop} {K : Owner → Prop} {o : Owner}
  {n m v pa : Nat}

theorem snap_some (ho : own s T o = some pa) (hK : K o) (hF : ∀ r d k, o = .node r d k → F r) :
    snap s T F K pa = some (s.page pa) := if_pos ⟨o, hK, hF, ho⟩

theorem Rep.snap (h : Rep L X s T) : Rep L (snap s T F K) s T := by
  refine ⟨h.exact, fun pa b hb => ?_, h.inner, h.leaf, h.pipes, h.kernel⟩
  simp only [Vm.snap] at hb
  split at hb
  · next hp =>
    obtain ⟨o, -, hF, ho⟩ := hp
    exact ⟨Option.some.inj hb, o, hF, ho⟩
  · cases hb

theorem Rep.snap_none (h : Rep L X s T) (ho : own s T o = some pa) (hK : ¬ K o) : Vm.snap s T F K pa = none := by
  refine if_neg ?_
  rintro ⟨u, hu, -, hown⟩
  exact hK (h.inj ho hown ▸ hu)

theorem Rep.page_snap {T' : Temps} (h : Rep L X s' T') (hle : (Vm.snap s T F K).Le X) (ho : own s T o = some pa) (hK : K o)
    (hF : ∀ r d k, o = .node r d k → F r) : s'.page pa = s.page pa :=
  (h.pins pa _ (hle.page pa _ (snap_some ho hK hF))).1

def Below (r : Tab) (n : Nat) (o : Owner) : Prop := ∃ v < n, o = .user r v

noncomputable def snapUser (s : Sys) (T : Temps) (r : Tab) (n : Nat) : Pins := snap s T (fun _ => False) (Below r n)

instance {r' : Tab} : (snapUser s T r n).Open r' := ⟨id⟩

theorem Rep.page_user {Y : Pins} (h : Rep L Y s T) (hs : Rep L X s' T) (hle : (snapUser s T r n).Le X) (hv : v < n)
    (hU : v < USERPAGES) (hmapped : lv s T r v ≠ 0) : s'.page (pte2pa (lv s T r v)) = s.page (pte2pa (lv s T r v)) :=
  hs.page_snap hle (h.own_user hU hmapped) ⟨v, hv, rfl⟩ nofun

theorem Rep.unpinned_above (h : Rep L X s T) (hn : n ≤ USERPAGES) (hmapped : ∀ v < n, lv s T r v ≠ 0) :
    Unpinned (snapUser s T r m) s T r m n := by
  intro v h1 h2
  refine h.snap_none (h.own_user (Nat.lt_of_lt_of_le h2 hn) (hmapped v h2)) ?_
  rintro ⟨w, hw, he⟩
  obtain ⟨-, rfl⟩ := Owner.user.inj he
  exact Nat.not_lt.mpr h1 hw

theorem userPage_eq (hroot : root s T (some i) = some (s.proc i).pagetable) (h : Rep L X s T) (hv : v < USERPAGES) :
    userPage s i v = if lv s T (some i) v = 0 then none
      else some (pteFlags (lv s T (some i) v), s.page (pte2pa (lv s T (some i) v))) := by
  have hlv : pteOf s i v = lv s T (some i) v := (ent_of_root hroot).symm
  unfold userPage
  rw [hlv]
  by_cases h0 : lv s T (some i) v = 0
  · rw [if_neg fun hn => h.valid_iff.mp hn.2 h0, if_pos h0]
  · rw [if_pos ⟨hv, h.valid_iff.mpr h0⟩, if_neg h0]

theorem userPage_high (hv : USERPAGES ≤ v) : userPage s i v = none := if_neg fun h => by omega

theorem userPage_setSz {sz : Nat} : userPage (s.setProc i ((s.proc i).setSz sz)) i v = userPage s i v := by
  unfold userPage pteOf
  rw [setProc_self]
  rfl

theorem userPage_congr (hroot : root s T (some i) = some (s.proc i).pagetable)
    (hroot' : root s' T (some i) = some (s'.proc i).pagetable) (hlv : lv s' T (some i) v = lv s T (some i) v)
    (hpage : s'.page (pte2pa (lv s T (some i) v)) = s.page (pte2pa (lv s T (some i) v))) : userPage s' i v = userPage s i v := by
  unfold userPage
  rw [show pteOf s' i v = pteOf s i v from (ent_of_root hroot').symm.trans (hlv.trans (ent_of_root hroot)),
    show pteOf s i v = lv s T (some i) v from (ent_of_root hroot).symm, hpage]

def InUse (s : Sys) (r : Tab) : Prop := ∃ i, r = some i ∧ (s.proc i).state ≠ .unused

/-- All that is owned, with the page tables of processes in use frozen. -/
noncomputable def snapAll (s : Sys) (T : Temps) : Pins := snap s T (InUse s) fun _ => True

instance : (snapAll s T).Open none := ⟨fun ⟨_, h, _⟩ => by cases h⟩

theorem snapAll_open (hi : (s.proc i).state = .unused) : (snapAll s T).Open (some i) :=
  ⟨fun ⟨_, h, hj⟩ => hj (Option.some.inj h ▸ hi)⟩

def Owner.tab : Owner → Option Tab
  | .node r _ _ => some r
  | .user r _ => some r
  | .frame i => some (some i)
  | _ => none

theorem own_unused (htab : T.tab = none) (hok : ∀ i, SlotOk L s T i) (ho : o.tab = some r) (hr : ¬ InUse s r) :
    own s T o = none := by
  have hslot : ∀ i, r = some i → (s.proc i).pagetable = 0 ∧ (s.proc i).trapframe = 0 := fun i hi => by
    have hun : (s.proc i).state = .unused := by
      by_contra hne
      exact hr ⟨i, hi, hne⟩
    obtain ⟨hpt, htf, -⟩ := (hok i).unused hun
    exact ⟨hpt, htf⟩
  have hroot : root s T r = none := by
    cases r with
    | none => exact htab
    | some i => simp only [root, (hslot i rfl).1, ptr, if_true]
  cases o with
  | node r' d k =>
    obtain rfl : r' = r := Option.some.inj ho
    simp only [own, nd_of_noroot hroot, ite_self]
  | user r' v =>
    obtain rfl : r' = r := Option.some.inj ho
    simp only [own, ent_of_noroot hroot, target_zero, ite_self]
  | frame i => simp only [own, (hslot i (Option.some.inj ho).symm).2, ptr, if_true]
  | _ => cases ho

/-- Since `s`, processes in use have been left alone. -/
structure Since (L : Layout) (T : Temps) (s s' : Sys) : Prop where
  rep : ∃ X, (snapAll s T).Le X ∧ Rep L X s' T
  proc : ∀ i, (s.proc i).state ≠ .unused → s'.proc i = s.proc i
  pipes : s'.pipes = s.pipes
  kernel : s'.kernel = s.kernel

namespace Since

theorem page (h : Since L T s s') (ho : own s T o = some pa) (hF : ∀ r d k, o = .node r d k → InUse s r) :
    s'.page pa = s.page pa := by
  obtain ⟨X, hle, hs⟩ := h.rep
  exact hs.page_snap hle ho trivial hF

theorem ent (h : Since L T s s') (hi : (s.proc i).state ≠ .unused) {d k : Nat} (hd : d ≤ 2) :
    ent s' T (some i) d k = ent s T (some i) d k := by
  refine ent_congr (by simp only [root, h.proc i hi]) (fun d k q hd hq => ?_) hd
  refine h.page (o := .node (some i) d k) ((own_node hd).trans hq) fun r _ _ he => ?_
  injection he with hr
  exact ⟨i, hr.symm, hi⟩

theorem own_inUse (h : Since L T s s') (ho : ∀ r, o.tab = some r → InUse s r) : own s' T o = own s T o := by
  cases o with
  | node r d k =>
    obtain ⟨i, rfl, hi⟩ := ho r rfl
    by_cases hd : d ≤ 2
    · rw [own_node hd, own_node hd]
      cases d with
      | zero => simp only [nd, root, h.proc i hi]
      | succ d => simp only [nd, h.ent hi (d := d) (by omega)]
    · simp only [own, if_neg hd]
  | user r v =>
    obtain ⟨i, rfl, hi⟩ := ho r rfl
    simp only [own, h.ent hi (le_refl 2)]
  | frame i =>
    obtain ⟨j, hj, hi⟩ := ho (some i) rfl
    simp only [own, h.proc i (Option.some.inj hj ▸ hi)]
  | pipe pa => simp only [own, h.pipes]
  | kernel pa => simp only [own, h.kernel]
  | temp pa => rfl

theorem own (h : Since L T s s') (htab : T.tab = none) (hok : ∀ i, SlotOk L s T i) (ho : own s T o = some pa) :
    own s' T o = some pa := by
  refine (h.own_inUse fun r hr => ?_).trans ho
  by_contra hno
  rw [own_unused htab hok hr hno] at ho
  cases ho

theorem pteOf (h : Since L T s s') (hi : (s.proc i).state ≠ .unused) (hok : ∀ i, SlotOk L s T i) : pteOf s' i v = pteOf s i v := by
  have hroot := root_slot (T := T) ((hok i).used hi).1
  have hroot' : root s' T (some i) = some (s'.proc i).pagetable := by
    simp only [root, h.proc i hi] at hroot ⊢
    exact hroot
  exact (ent_of_root hroot').symm.trans ((h.ent hi (le_refl 2)).trans (ent_of_root hroot))

theorem userPage (h : Since L T s s') (h0 : Inv L s T) (hi : (s.proc i).state ≠ .unused) : userPage s' i v = userPage s i v := by
  have hroot := root_slot (T := T) ((h0.slots i).used hi).1
  unfold Vm.userPage
  rw [h.pteOf hi h0.slots]
  split
  · next hv =>
    have hne : lv s T (some i) v ≠ 0 := h0.rep.valid_iff.mp (by rw [show lv s T (some i) v = Vm.pteOf s i v from ent_of_root hroot]; exact hv.2)
    have hpage := h.page (h0.rep.own_user hv.1 hne) nofun
    rw [show lv s T (some i) v = Vm.pteOf s i v from ent_of_root hroot] at hpage
    rw [hpage]
  · rfl

end Since

def IsFree (s : Sys) (pa : Nat) : Prop := ∃ l, Chain s.page s.freelist l ∧ pa ∈ l

theorem Rep.isFree_iff (h : Rep L X s T) : IsFree s pa ↔ Stock L pa ∧ ∀ o, own s T o ≠ some pa := by
  obtain ⟨l, hl, hex⟩ := h.exact
  constructor
  · rintro ⟨l', hl', hpa⟩
    obtain rfl := hl.unique hl'
    exact ⟨hex.free_mem pa hpa, fun o ho => hex.held o pa ho hpa⟩
  · rintro ⟨hst, hno⟩
    rcases hex.cover pa hst with hpa | ⟨o, ho⟩
    · exact ⟨l, hl, hpa⟩
    · exact absurd ho (hno o)

theorem Since.isFree_iff (h : Since L T s s') (htab : T.tab = none) (h0 : Inv L s T) (h1 : Inv L s' T)
    (hun : ∀ i, (s.proc i).state = .unused → (s'.proc i).state = .unused) : IsFree s' pa ↔ IsFree s pa := by
  have hown : ∀ o, Vm.own s' T o = Vm.own s T o := by
    intro o
    by_cases ho : ∀ r, o.tab = some r → InUse s r
    · exact h.own_inUse ho
    · push Not at ho
      obtain ⟨r, hr, hno⟩ := ho
      rw [own_unused htab h0.slots hr hno, own_unused htab h1.slots hr]
      rintro ⟨i, rfl, hi⟩
      exact hno ⟨i, rfl, fun hs => hi (hun i hs)⟩
  rw [h1.rep.isFree_iff, h0.rep.isFree_iff]
  simp only [hown]

theorem addInt_eq {sz : Nat} {n : BitVec 32} (hsz : sz ≤ 134217728) (hn : 0 ≤ sz + n.toInt) :
    (addInt sz n : Int) = sz + n.toInt := by
  have hlt : n.toInt < 2 ^ 31 := BitVec.toInt_lt
  unfold addInt
  omega

theorem Inv.sz_le (h : Inv L s T) (hused : (s.proc i).state ≠ .unused) : (s.proc i).sz ≤ 134217728 := by
  obtain ⟨-, hsp⟩ := h.space hused
  have hpages : pages (s.proc i).sz ≤ 32768 := h.rep.le_pages hsp.user.mapped
  simp only [pages, PGSIZE] at hpages
  omega

theorem Inv.pages_le (h : Inv L s T) (hused : (s.proc i).state ≠ .unused) : pages (s.proc i).sz ≤ USERPAGES :=
  Nat.le_trans (h.rep.le_pages (h.space hused).2.user.mapped) (by decide)

theorem Inv.userPage_iff (h : Inv L s T) (hused : (s.proc i).state ≠ .unused) :
    (userPage s i v).isSome ↔ v * PGSIZE < pgRoundUp (s.proc i).sz := by
  obtain ⟨hroot, hsp⟩ := h.space hused
  have hle := h.pages_le hused
  have hsz := h.sz_le hused
  rw [pgRoundUp_eq (by omega), Nat.mul_lt_mul_right (by decide)]
  rcases Nat.lt_or_ge v USERPAGES with hv | hv
  · rw [userPage_eq hroot h.rep hv]
    rcases Nat.lt_or_ge v (pages (s.proc i).sz) with hlt | hge
    · rw [if_neg (hsp.user.mapped v hlt)]
      exact iff_of_true rfl hlt
    · rw [if_pos (hsp.user.rest v hge hv)]
      exact iff_of_false nofun (Nat.not_lt.mpr hge)
  · rw [userPage_high hv]
    exact iff_of_false nofun (Nat.not_lt.mpr (Nat.le_trans hle hv))

/-- What `growproc` leaves of the memory of process `i`. -/
structure Resized (s s' : Sys) (i : Slot) (sz : Nat) : Prop where
  proc : s'.proc i = (s.proc i).setSz sz
  old : ∀ v, v < pages (s.proc i).sz → v < pages sz → userPage s' i v = userPage s i v
  new : ∀ v, pages (s.proc i).sz ≤ v → v < pages sz →
    userPage s' i v = some (PTE_R ||| PTE_U ||| PTE_W ||| PTE_V, Bytes.zero)

theorem Kept.root_proc (hk : Kept s s') (hroot : root s T (some i) = some (s.proc i).pagetable) :
    root s' T (some i) = some (s'.proc i).pagetable := by
  rw [root_congr hk rfl, hroot, hk.proc]

theorem Resized.set {sz : Nat} (hk : Kept s s')
    (hold : ∀ v, v < pages (s.proc i).sz → v < pages sz → userPage s' i v = userPage s i v)
    (hnew : ∀ v, pages (s.proc i).sz ≤ v → v < pages sz →
      userPage s' i v = some (PTE_R ||| PTE_U ||| PTE_W ||| PTE_V, Bytes.zero)) :
    Resized s (s'.setProc i ((s'.proc i).setSz sz)) i sz :=
  ⟨by rw [setProc_self, hk.proc], fun v h1 h2 => userPage_setSz.trans (hold v h1 h2),
    fun v h1 h2 => userPage_setSz.trans (hnew v h1 h2)⟩

theorem userPage_calm {Y : Pins} (h : Rep L Y s T) (hs : Rep L X s' T) (hc : Calm s T s' T) (hle : (snapUser s T (some i) n).Le X)
    (hroot : root s T (some i) = some (s.proc i).pagetable) (hu : UserTo s T (some i) n) (hn : n ≤ USERPAGES) :
    userPage s' i v = userPage s i v := by
  rcases Nat.lt_or_ge v n with hv | hv
  · refine userPage_congr hroot (hc.kept.root_proc hroot) (hc.lv _ v) ?_
    exact h.page_user hs hle hv (Nat.lt_of_lt_of_le hv hn) (hu.mapped v hv)
  rcases Nat.lt_or_ge v USERPAGES with hU | hU
  · have h0 := hu.rest v hv hU
    have hlv : pteOf s i v = 0 := (ent_of_root hroot).symm.trans h0
    have hlv' : pteOf s' i v = 0 := (ent_of_root (hc.kept.root_proc hroot)).symm.trans ((hc.lv _ v).trans h0)
    unfold userPage
    rw [hlv, hlv', has_zero, if_neg nofun, if_neg nofun]
  · rw [userPage_high hU, userPage_high hU]

theorem wp_growproc {n : BitVec 32} (h : Inv L s Temps.empty) (hused : (s.proc i).state ≠ .unused)
    (hn : 0 ≤ (s.proc i).sz + n.toInt) :
    wp (growproc L i n) (fun r s' => r = 0 ∧ Resized s s' i ((s.proc i).sz + n.toInt).toNat ∨
      r = -1 ∧ s'.proc i = s.proc i ∧ ∀ v, userPage s' i v = userPage s i v) (Looked L) s := by
  obtain ⟨hroot, hsp⟩ := h.space hused
  have hsz := h.sz_le hused
  have hle := h.pages_le hused
  have hadd : addInt (s.proc i).sz n = ((s.proc i).sz + n.toInt).toNat := by
    have := addInt_eq hsz hn
    omega
  unfold growproc
  simp only [wp_bind, wp_view, wp_ite]
  split
  · next hpos =>
    have hlt := addInt_pos hsz hpos
    have hrep : Rep L (snapUser s Temps.empty (some i) (pages (s.proc i).sz)) s Temps.empty := h.rep.snap
    refine wp_uvmalloc hrep hroot hsp.user (by decide) (fun s' hs' hc => ?_) (fun hshrink => ?_) fun s' X' hle' hs' hg hf => ?_
    · rw [if_pos rfl]
      exact Or.inr ⟨rfl, by rw [hc.kept.proc], fun v => userPage_calm h.rep hs' hc .refl hroot hsp.user hle⟩
    · omega
    · rw [if_neg (by omega)]
      refine Or.inl ⟨rfl, hadd ▸ Resized.set hg.kept (fun v h1 _ => ?_) fun v h1 h2 => ?_⟩
      · refine userPage_congr hroot (hg.kept.root_proc hroot) (hg.old _ v (by omega)) ?_
        exact h.rep.page_user hs' hf.le h1 (Nat.lt_of_lt_of_le h1 hle) (hsp.user.mapped v h1)
      · obtain ⟨pa, hpte⟩ := hg.new v h1 h2
        have hU : v < USERPAGES := Nat.lt_of_lt_of_le h2 (Nat.le_trans (hs'.le_pages (hg.mapped hsp.user.mapped)) (by decide))
        rw [userPage_eq (hg.kept.root_proc hroot) hs' hU, if_neg (hpte.ne_zero (has_valid _)), hpte.flags_eq,
          (hs'.pins _ _ (hf.pinned v h1 h2)).1]
  · next hnpos =>
    have hnew : addInt (s.proc i).sz n ≤ (s.proc i).sz := by omega
    split
    · have hmono := pages_mono hnew
      have hrep : Rep L (snapUser s Temps.empty (some i) (pages (addInt (s.proc i).sz n))) s Temps.empty := h.rep.snap
      refine wp_uvmdealloc hrep hroot hsz (fun v _ hv => hsp.user.mapped v hv)
        (h.rep.unpinned_above hle hsp.user.mapped) fun s' hs' hc => ?_
      rw [Nat.min_eq_right hnew, ← hadd]
      refine Or.inl ⟨rfl, Resized.set hc.kept (fun v h1 h2 => ?_) fun v h1 h2 => by omega⟩
      refine userPage_congr hroot (hc.kept.root_proc hroot) ?_
        (h.rep.page_user hs' .refl h2 (Nat.lt_of_lt_of_le h1 hle) (hsp.user.mapped v h1))
      rw [hc.lv, if_neg (by omega)]
    · next hneg =>
      have h0 : ((s.proc i).sz + n.toInt).toNat = (s.proc i).sz := by omega
      rw [h0]
      exact Or.inl ⟨rfl, rfl, fun _ _ _ => rfl, fun v h1 h2 => by omega⟩

end

end Xv6.Vm
