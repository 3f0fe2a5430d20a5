import Xv6.Vm.Moves

/-! Pages that change hands between the operation in progress and the process table, the pipes and the kernel. -/

namespace Xv6.Vm
open Lib

section
variable {L : Layout} {X : Pins} {s s' : Sys} {T T' : Temps} {r : Tab} {d k c : Nat} {i : Slot} {p : Proc}

theorem entry_barren {pg : Nat → Page} (hb : Barren pg c) : entry pg c d k = 0 := by
  induction d generalizing k with
  | zero =>
    by_cases hk : k / 512 = 0
    · rw [entry_of_node (q := c) (by simp [node, hk]), hb _ (Nat.mod_lt _ (by omega))]
    · exact entry_of_none (by simp [node, hk])
  | succ d ih => exact entry_of_none (by rw [node_succ, ih, target_zero])

theorem nd_root : nd s T r 0 0 = root s T r := by simp only [nd, if_true]

theorem own_reroot (hpage : s'.page = s.page) (hroot : ∀ r', r' ≠ r → root s' T' r' = root s T r')
    (hz : ∀ d k, ent s T r d k = 0) (hz' : ∀ d k, ent s' T' r d k = 0)
    (hframe : ∀ j, (s'.proc j).trapframe = (s.proc j).trapframe) (hpipes : s'.pipes = s.pipes)
    (hkernel : s'.kernel = s.kernel) (hpages : ∀ pa, pa ≠ c → (pa ∈ T'.pages ↔ pa ∈ T.pages)) {x : Owner}
    (hx : x ≠ .node r 0 0) (hc : x ≠ .temp c) : own s' T' x = own s T x := by
  have hent : ∀ r' d k, ent s' T' r' d k = ent s T r' d k := by
    intro r' d k
    by_cases hr : r' = r
    · rw [hr, hz, hz']
    · simp only [ent, hroot r' hr, hpage]
  cases x with
  | node r' d k =>
    cases d with
    | zero =>
      by_cases hk : k = 0
      · subst hk
        have hr : r' ≠ r := fun he => hx (he ▸ rfl)
        simp only [own, nd, hroot r' hr]
      · simp only [own, nd, if_neg hk]
    | succ d => simp only [own, nd, hent]
  | user r' v => simp only [own, hent]
  | frame j => simp only [own, hframe]
  | pipe pa => simp only [own, hpipes]
  | kernel pa => simp only [own, hkernel]
  | temp pa => simp only [own, hpages pa fun he => hc (he ▸ rfl)]

namespace Rep

theorem newTab (h : Rep L X s T) (htab : T.tab = none) (hc : c ∈ T.pages) (hb : Barren s.page c) (hX : X c = none) :
    Rep L X s ⟨some c, T.pages.erase c⟩ ∧ ∀ r d k, ent s ⟨some c, T.pages.erase c⟩ r d k = ent s T r d k := by
  have hz : ∀ d k, ent s T none d k = 0 := fun d k => ent_of_noroot htab
  have hz' : ∀ d k, ent s ⟨some c, T.pages.erase c⟩ none d k = 0 := fun d k => by
    rw [ent_of_root (p := c) rfl, entry_barren hb]
  have hent : ∀ r d k, ent s ⟨some c, T.pages.erase c⟩ r d k = ent s T r d k := fun r d k => by
    cases r with
    | none => rw [hz, hz']
    | some i => rfl
  have hnode : own s T (.node none 0 0) = none := by rw [own_node (by omega), nd_root]; exact htab
  have hnode' : own s ⟨some c, T.pages.erase c⟩ (.node none 0 0) = some c := by rw [own_node (by omega), nd_root, root]
  have hrest : ∀ x, x ≠ .temp c → x ≠ .node none 0 0 → own s ⟨some c, T.pages.erase c⟩ x = own s T x := by
    refine fun x hx hx' => own_reroot (c := c) rfl (fun r' hr' => ?_) hz hz' (fun _ => rfl) rfl rfl (fun pa hpa => ?_) hx' hx
    · cases r' with
      | none => exact absurd rfl hr'
      | some i => rfl
    · simp only [Finset.mem_erase, hpa, ne_eq, not_false_eq_true, true_and]
  obtain ⟨l, hl, hex⟩ := h.exact
  exact ⟨h.quiet rfl rfl (fun r d k _ => hent r d k) ⟨l, hl, hex.move (o := .temp c) (u := .node none 0 0)
    (own_temp hc) hnode (own_temp_none (Finset.notMem_erase _ _)) hnode' hrest⟩
    (h.pins.move (fun _ _ => rfl) (owners_move (own_temp hc) hnode hnode' hrest fun hne => absurd hX hne)), hent⟩

theorem dropTab (h : Rep L X s T) (htab : T.tab = some c) (hb : Barren s.page c) :
    Rep L X s ⟨none, insert c T.pages⟩ ∧ ∀ r d k, ent s ⟨none, insert c T.pages⟩ r d k = ent s T r d k := by
  have hz : ∀ d k, ent s T none d k = 0 := fun d k => by
    rw [ent_of_root (show root s T none = some c from htab), entry_barren hb]
  have hz' : ∀ d k, ent s ⟨none, insert c T.pages⟩ none d k = 0 := fun d k => ent_of_noroot rfl
  have hent : ∀ r d k, ent s ⟨none, insert c T.pages⟩ r d k = ent s T r d k := fun r d k => by
    cases r with
    | none => rw [hz, hz']
    | some i => rfl
  have hnode : own s T (.node none 0 0) = some c := by rw [own_node (by omega), nd_root, root, htab]
  have hnot : c ∉ T.pages := fun hc => by cases h.inj hnode (own_temp hc)
  obtain ⟨l, hl, hex⟩ := h.exact
  have htemp : own s ⟨none, insert c T.pages⟩ (.temp c) = some c := own_temp (Finset.mem_insert_self ..)
  have hrest : ∀ x, x ≠ .node none 0 0 → x ≠ .temp c → own s ⟨none, insert c T.pages⟩ x = own s T x := by
    refine fun x hx hx' => own_reroot (c := c) rfl (fun r' hr' => ?_) hz hz' (fun _ => rfl) rfl rfl (fun pa hpa => ?_) hx hx'
    · cases r' with
      | none => exact absurd rfl hr'
      | some i => rfl
    · simp only [Finset.mem_insert, hpa, false_or]
  refine ⟨h.quiet rfl rfl (fun r d k _ => hent r d k) ⟨l, hl, hex.move hnode (own_temp_none hnot) ?_ htemp hrest⟩
    (h.pins.move (fun _ _ => rfl) (owners_move hnode (own_temp_none hnot) htemp hrest fun _ => Owner.data_temp.keeps)), hent⟩
  rw [own_node (by omega), nd_root, root]

theorem dropSlot (h : Rep L X s T) (hc : (s.proc i).pagetable = c) (hne : c ≠ 0) (hb : Barren s.page c)
    (hpt : p.pagetable = 0) (htf : p.trapframe = (s.proc i).trapframe) :
    Rep L X (s.setProc i p) (T.add c) ∧ ∀ r d k, ent (s.setProc i p) (T.add c) r d k = ent s T r d k := by
  have hroot : root s T (some i) = some c := by simp only [root, ptr, hc, if_neg hne]
  have hroot' : root (s.setProc i p) (T.add c) (some i) = none := by
    simp only [root, Sys.setProc, Function.update_self, ptr, hpt, if_true]
  have hother : ∀ r', r' ≠ some i → root (s.setProc i p) (T.add c) r' = root s T r' := fun r' hr' => by
    cases r' with
    | none => rfl
    | some j =>
      have hj : j ≠ i := fun he => hr' (he ▸ rfl)
      simp only [root, Sys.setProc, Function.update_of_ne hj]
  have hz : ∀ d k, ent s T (some i) d k = 0 := fun d k => by rw [ent_of_root hroot, entry_barren hb]
  have hz' : ∀ d k, ent (s.setProc i p) (T.add c) (some i) d k = 0 := fun d k => ent_of_noroot hroot'
  have hent : ∀ r d k, ent (s.setProc i p) (T.add c) r d k = ent s T r d k := fun r d k => by
    by_cases hr : r = some i
    · rw [hr, hz, hz']
    · simp only [ent, hother r hr]
      rfl
  have hnode : own s T (.node (some i) 0 0) = some c := by rw [own_node (by omega), nd_root, hroot]
  have hnot : c ∉ T.pages := fun hc => by cases h.inj hnode (own_temp hc)
  obtain ⟨l, hl, hex⟩ := h.exact
  have hrest : ∀ x, x ≠ .node (some i) 0 0 → x ≠ .temp c → own (s.setProc i p) (T.add c) x = own s T x := by
    have hpage : (s.setProc i p).page = s.page := rfl
    refine fun x hx hx' => own_reroot (c := c) hpage hother hz hz' (fun j => ?_) rfl rfl (fun pa hpa => ?_) hx hx'
    · by_cases hj : j = i
      · subst hj
        simp only [Sys.setProc, Function.update_self, htf]
      · simp only [Sys.setProc, Function.update_of_ne hj]
    · simp only [Temps.add, Finset.mem_insert, hpa, false_or]
  refine ⟨h.quiet rfl rfl (fun r d k _ => hent r d k) ⟨l, hl, hex.move hnode (own_temp_none hnot) ?_ own_add hrest⟩
    (h.pins.move (fun _ _ => rfl) (owners_move hnode (own_temp_none hnot) own_add hrest fun _ => Owner.data_temp.keeps)), hent⟩
  rw [own_node (by omega), nd_root, hroot']

end Rep

theorem root_setProc (hpt : p.pagetable = (s.proc i).pagetable) (htab : T'.tab = T.tab) :
    root (s.setProc i p) T' r = root s T r := by
  cases r with
  | none => exact htab
  | some j =>
    by_cases hj : j = i
    · subst hj
      simp only [root, Sys.setProc, Function.update_self, hpt]
    · simp only [root, Sys.setProc, Function.update_of_ne hj]

theorem ent_setProc (hpt : p.pagetable = (s.proc i).pagetable) (htab : T'.tab = T.tab) :
    ent (s.setProc i p) T' r d k = ent s T r d k := by
  simp only [ent, root_setProc hpt htab]
  rfl

theorem own_setProc (hpt : p.pagetable = (s.proc i).pagetable) (htab : T'.tab = T.tab) {x : Owner}
    (hframe : x = .frame i → p.trapframe = (s.proc i).trapframe)
    (hpages : ∀ pa, x = .temp pa → (pa ∈ T'.pages ↔ pa ∈ T.pages)) : own (s.setProc i p) T' x = own s T x := by
  cases x with
  | node r d k =>
    cases d with
    | zero =>
      simp only [own, nd, root_setProc hpt htab]
    | succ d => simp only [own, nd, ent_setProc hpt htab]
  | user r v => simp only [own, ent_setProc hpt htab]
  | frame j =>
    by_cases hj : j = i
    · subst hj
      simp only [own, Sys.setProc, Function.update_self, hframe rfl]
    · simp only [own, Sys.setProc, Function.update_of_ne hj]
  | pipe pa => rfl
  | kernel pa => rfl
  | temp pa => simp only [own, hpages pa rfl]

namespace Rep

theorem reproc (h : Rep L X s T) (hpage : s'.page = s.page) (hfree : s'.freelist = s.freelist)
    (hpt : ∀ i, (s'.proc i).pagetable = (s.proc i).pagetable) (htf : ∀ i, (s'.proc i).trapframe = (s.proc i).trapframe)
    (hpipes : s'.pipes = s.pipes) (hkernel : s'.kernel = s.kernel) :
    Rep L X s' T ∧ ∀ r d k, ent s' T r d k = ent s T r d k := by
  have hroot : ∀ r, root s' T r = root s T r := fun r => by
    cases r with
    | none => rfl
    | some j => simp only [root, hpt]
  have hent : ∀ r d k, ent s' T r d k = ent s T r d k := fun r d k => by simp only [ent, hroot, hpage]
  have hown : ∀ x, own s' T x = own s T x := by
    intro x
    cases x with
    | node r d k =>
      cases d with
      | zero => simp only [own, nd, hroot]
      | succ d => simp only [own, nd, hent]
    | user r v => simp only [own, hent]
    | frame j => simp only [own, htf]
    | pipe pa => simp only [own, hpipes]
    | kernel pa => simp only [own, hkernel]
    | temp pa => rfl
  obtain ⟨l, hl, hex⟩ := h.exact
  exact ⟨h.quiet hpipes hkernel (fun r d k _ => hent r d k) ⟨l, by rw [hpage, hfree]; exact hl, hex.congr hown⟩
    (h.pins.congr (fun _ _ => by rw [hpage]) hown), hent⟩

theorem setFrame (h : Rep L X s T) (h0 : (s.proc i).trapframe = 0) (hc : c ∈ T.pages)
    (hpt : p.pagetable = (s.proc i).pagetable) (htf : p.trapframe = c) : Rep L X (s.setProc i p) (T.drop c) := by
  have hframe : own s T (.frame i) = none := by simp only [own, ptr, h0, if_true]
  have hframe' : own (s.setProc i p) (T.drop c) (.frame i) = some c := by
    have hne : c ≠ 0 := (h.stock (own_temp hc)).ne_zero
    simp only [own, Sys.setProc, Function.update_self, htf, ptr, if_neg hne]
  have hrest : ∀ x, x ≠ .temp c → x ≠ .frame i → own (s.setProc i p) (T.drop c) x = own s T x := by
    refine fun x hx hx' => own_setProc hpt Temps.drop_tab (fun he => absurd he hx') fun pa hpa => ?_
    have hne : pa ≠ c := fun he => hx (hpa.trans (he ▸ rfl))
    simp only [Temps.drop, Finset.mem_erase, hne, ne_eq, not_false_eq_true, true_and]
  obtain ⟨l, hl, hex⟩ := h.exact
  exact h.quiet rfl rfl (fun r d k _ => ent_setProc hpt Temps.drop_tab) ⟨l, hl, hex.move (o := .temp c)
    (u := .frame i) (own_temp hc) hframe own_drop hframe' hrest⟩
    (h.pins.move (fun _ _ => rfl) (owners_move (own_temp hc) hframe hframe' hrest fun _ => Owner.data_frame.keeps))

theorem dropFrame (h : Rep L X s T) (hc : (s.proc i).trapframe = c) (hne : c ≠ 0)
    (hpt : p.pagetable = (s.proc i).pagetable) (htf : p.trapframe = 0) : Rep L X (s.setProc i p) (T.add c) := by
  have hframe : own s T (.frame i) = some c := by simp only [own, ptr, hc, if_neg hne]
  have hnot : c ∉ T.pages := fun hc => by cases h.inj hframe (own_temp hc)
  have hrest : ∀ x, x ≠ .frame i → x ≠ .temp c → own (s.setProc i p) (T.add c) x = own s T x := by
    refine fun x hx hx' => own_setProc hpt Temps.add_tab (fun he => absurd he hx) fun pa hpa => ?_
    have hne : pa ≠ c := fun he => hx' (hpa.trans (he ▸ rfl))
    simp only [Temps.add, Finset.mem_insert, hne, false_or]
  obtain ⟨l, hl, hex⟩ := h.exact
  refine h.quiet rfl rfl (fun r d k _ => ent_setProc hpt Temps.add_tab) ⟨l, hl, hex.move hframe
    (own_temp_none hnot) ?_ own_add hrest⟩
    (h.pins.move (fun _ _ => rfl) (owners_move hframe (own_temp_none hnot) own_add hrest fun _ => Owner.data_temp.keeps))
  simp only [own, Sys.setProc, Function.update_self, htf, ptr, if_true]

end Rep

/-- The operation's page table and that of process `i` change places. -/
def Owner.swap (i : Slot) : Owner ≃ Owner where
  toFun
    | .node r d k => .node (Equiv.swap none (some i) r) d k
    | .user r v => .user (Equiv.swap none (some i) r) v
    | x => x
  invFun
    | .node r d k => .node (Equiv.swap none (some i) r) d k
    | .user r v => .user (Equiv.swap none (some i) r) v
    | x => x
  left_inv x := by cases x <;> simp only [Equiv.swap_apply_self]
  right_inv x := by cases x <;> simp only [Equiv.swap_apply_self]

section
variable (htab : T.tab = ptr p.pagetable) (htab' : T'.tab = ptr (s.proc i).pagetable) (hpages : T'.pages = T.pages)
  (htf : p.trapframe = (s.proc i).trapframe)
include htab htab'

theorem root_swap : root (s.setProc i p) T' r = root s T (Equiv.swap none (some i) r) := by
  cases r with
  | none =>
    rw [Equiv.swap_apply_left]
    exact htab'
  | some j =>
    by_cases hj : j = i
    · subst hj
      rw [Equiv.swap_apply_right]
      simp only [root, Sys.setProc, Function.update_self, htab]
    · rw [Equiv.swap_apply_of_ne_of_ne (Option.some_ne_none j) fun he => hj (Option.some.inj he)]
      simp only [root, Sys.setProc, Function.update_of_ne hj]

theorem ent_swap : ent (s.setProc i p) T' r d k = ent s T (Equiv.swap none (some i) r) d k := by
  simp only [ent, root_swap htab htab']
  rfl

include hpages htf

theorem Rep.swapTab [hr : X.Open none] [hi : X.Open (some i)] (h : Rep L X s T) : Rep L X (s.setProc i p) T' := by
  have hown : ∀ x, own (s.setProc i p) T' x = own s T (Owner.swap i x) := by
    intro x
    cases x with
    | node r d k =>
      cases d with
      | zero => simp only [Owner.swap, Equiv.coe_fn_mk, own, nd, root_swap htab htab']
      | succ d => simp only [Owner.swap, Equiv.coe_fn_mk, own, nd, ent_swap htab htab']
    | user r v => simp only [Owner.swap, Equiv.coe_fn_mk, own, ent_swap htab htab']
    | frame j =>
      by_cases hj : j = i
      · subst hj
        simp only [Owner.swap, Equiv.coe_fn_mk, own, Sys.setProc, Function.update_self, htf]
      · simp only [Owner.swap, Equiv.coe_fn_mk, own, Sys.setProc, Function.update_of_ne hj]
    | temp pa => simp only [Owner.swap, Equiv.coe_fn_mk, own, hpages]
    | _ => rfl
  obtain ⟨l, hl, hex⟩ := h.exact
  refine ⟨⟨l, hl, hex.relabel (Owner.swap i) hown⟩, h.pins.move (fun _ _ => rfl) fun o pa hdata _ ho => ?_, fun r d k hd => ?_,
    fun r v => ?_, h.pipes, h.kernel⟩
  · refine ⟨(Owner.swap i).symm o, ?_, by rw [hown, Equiv.apply_symm_apply, ho]⟩
    cases o with
    | node r d k =>
      have hr : X.frozen r := hdata r d k rfl
      have h1 : r ≠ none := fun he => Pins.Open.out (he ▸ hr)
      have h2 : r ≠ some i := fun he => Pins.Open.out (he ▸ hr)
      simp only [Owner.swap, Equiv.coe_fn_symm_mk, Equiv.swap_apply_of_ne_of_ne h1 h2]
      exact hdata
    | _ => rintro _ _ _ ⟨⟩
  · rw [ent_swap htab htab']
    exact h.inner _ d k hd
  · rw [ent_swap htab htab']
    exact h.leaf _ v

end

theorem own_setPipes {pipes : List Pipe} (htab : T'.tab = T.tab) {x : Owner}
    (hpipe : ∀ pa, x = .pipe pa → (pa ∈ pipes.map Pipe.pa ↔ pa ∈ s.pipes.map Pipe.pa))
    (hpages : ∀ pa, x = .temp pa → (pa ∈ T'.pages ↔ pa ∈ T.pages)) : own (s.setPipes pipes) T' x = own s T x := by
  have hroot : ∀ r, root (s.setPipes pipes) T' r = root s T r := fun r => by
    cases r with
    | none => exact htab
    | some j => rfl
  have hent : ∀ r d k, ent (s.setPipes pipes) T' r d k = ent s T r d k := fun r d k => by
    simp only [ent, hroot]
    rfl
  cases x with
  | node r d k =>
    cases d with
    | zero => simp only [own, nd, hroot]
    | succ d => simp only [own, nd, hent]
  | user r v => simp only [own, hent]
  | pipe pa =>
    have := hpipe pa rfl
    simp only [own, Sys.setPipes, this]
  | temp pa => simp only [own, hpages pa rfl]
  | _ => rfl

theorem ent_setPipes {pipes : List Pipe} (htab : T'.tab = T.tab) :
    ent (s.setPipes pipes) T' r d k = ent s T r d k := by
  cases r with
  | none => simp only [ent, root, htab, Sys.setPipes]
  | some j => rfl

namespace Rep

theorem newPipe (h : Rep L X s T) {x : Pipe} (hc : x.pa ∈ T.pages) :
    Rep L X (s.setPipes (x :: s.pipes)) (T.drop x.pa) := by
  have hnot : x.pa ∉ s.pipes.map Pipe.pa := fun hm => by
    have hpipe : own s T (.pipe x.pa) = some x.pa := by simp only [own, hm, if_true]
    cases h.inj hpipe (own_temp hc)
  have hpipe : own s T (.pipe x.pa) = none := by simp only [own, hnot, if_false]
  have hpipe' : own (s.setPipes (x :: s.pipes)) (T.drop x.pa) (.pipe x.pa) = some x.pa := by
    simp only [own, Sys.setPipes, List.map_cons, List.mem_cons, true_or, if_true]
  have hrest : ∀ y, y ≠ .temp x.pa → y ≠ .pipe x.pa → own (s.setPipes (x :: s.pipes)) (T.drop x.pa) y = own s T y := by
    refine fun y hx hx' => own_setPipes Temps.drop_tab (fun pa hpa => ?_) fun pa hpa => ?_
    · have hne : pa ≠ x.pa := fun he => hx' (hpa.trans (he ▸ rfl))
      simp only [List.map_cons, List.mem_cons, hne, false_or]
    · have hne : pa ≠ x.pa := fun he => hx (hpa.trans (he ▸ rfl))
      simp only [Temps.drop, Finset.mem_erase, hne, ne_eq, not_false_eq_true, true_and]
  obtain ⟨l, hl, hex⟩ := h.exact
  refine ⟨⟨l, hl, hex.move (o := .temp x.pa) (u := .pipe x.pa) (own_temp hc) hpipe own_drop hpipe' hrest⟩,
    h.pins.move (fun _ _ => rfl) (owners_move (own_temp hc) hpipe hpipe' hrest fun _ => Owner.data_pipe.keeps),
    fun r d k hd => ?_, fun r v => ?_, ?_, h.kernel⟩
  · rw [ent_setPipes Temps.drop_tab]
    exact h.inner r d k hd
  · rw [ent_setPipes Temps.drop_tab]
    exact h.leaf r v
  · exact List.nodup_cons.mpr ⟨hnot, h.pipes⟩

theorem setPipe (h : Rep L X s T) {pipes : List Pipe} (hnodup : (pipes.map Pipe.pa).Nodup)
    (hmem : ∀ pa, pa ∈ pipes.map Pipe.pa ↔ pa ∈ s.pipes.map Pipe.pa) : Rep L X (s.setPipes pipes) T := by
  have hown : ∀ x, own (s.setPipes pipes) T x = own s T x := fun x => own_setPipes rfl (fun pa _ => hmem pa) fun _ _ => Iff.rfl
  obtain ⟨l, hl, hex⟩ := h.exact
  refine ⟨⟨l, hl, hex.congr hown⟩, h.pins.congr (fun _ _ => rfl) hown, fun r d k hd => ?_, fun r v => ?_, hnodup,
    h.kernel⟩
  · rw [ent_setPipes rfl]
    exact h.inner r d k hd
  · rw [ent_setPipes rfl]
    exact h.leaf r v

theorem dropPipe (h : Rep L X s T) {pipes : List Pipe} (hc : c ∈ s.pipes.map Pipe.pa) (hnodup : (pipes.map Pipe.pa).Nodup)
    (hmem : ∀ pa, pa ∈ pipes.map Pipe.pa ↔ pa ∈ s.pipes.map Pipe.pa ∧ pa ≠ c) : Rep L X (s.setPipes pipes) (T.add c) := by
  have hpipe : own s T (.pipe c) = some c := by simp only [own, hc, if_true]
  have hnot : c ∉ T.pages := fun hc => by cases h.inj hpipe (own_temp hc)
  have hrest : ∀ x, x ≠ .pipe c → x ≠ .temp c → own (s.setPipes pipes) (T.add c) x = own s T x := by
    refine fun x hx hx' => own_setPipes Temps.add_tab (fun pa hpa => ?_) fun pa hpa => ?_
    · have hne : pa ≠ c := fun he => hx (hpa.trans (he ▸ rfl))
      simp only [hmem, hne, ne_eq, not_false_eq_true, and_true]
    · have hne : pa ≠ c := fun he => hx' (hpa.trans (he ▸ rfl))
      simp only [Temps.add, Finset.mem_insert, hne, false_or]
  obtain ⟨l, hl, hex⟩ := h.exact
  refine ⟨⟨l, hl, hex.move hpipe (own_temp_none hnot) ?_ own_add hrest⟩,
    h.pins.move (fun _ _ => rfl) (owners_move hpipe (own_temp_none hnot) own_add hrest fun _ => Owner.data_temp.keeps),
    fun r d k hd => ?_, fun r v => ?_, hnodup, h.kernel⟩
  · simp only [own, Sys.setPipes, hmem, ne_eq, not_true_eq_false, and_false, if_false]
  · rw [ent_setPipes Temps.add_tab]
    exact h.inner r d k hd
  · rw [ent_setPipes Temps.add_tab]
    exact h.leaf r v

end Rep

end

end Xv6.Vm
