import Xv6.Vm.Rep

/-! What one change of the kernel state does to the ownership of pages. -/

namespace Xv6.Vm
open Lib

structure Kept (s s' : Sys) : Prop where
  proc : s'.proc = s.proc
  initproc : s'.initproc = s.initproc
  nextpid : s'.nextpid = s.nextpid
  pipes : s'.pipes = s.pipes
  kernel : s'.kernel = s.kernel

theorem Kept.refl (s : Sys) : Kept s s := ⟨rfl, rfl, rfl, rfl, rfl⟩

theorem Kept.trans {s t u : Sys} (h : Kept s t) (h' : Kept t u) : Kept s u :=
  ⟨h'.proc.trans h.proc, h'.initproc.trans h.initproc, h'.nextpid.trans h.nextpid, h'.pipes.trans h.pipes,
    h'.kernel.trans h.kernel⟩

section
variable {s : Sys} {pa a v : Nat} {b : Page}

theorem kept_setPage : Kept s (s.setPage pa b) := ⟨rfl, rfl, rfl, rfl, rfl⟩

theorem kept_setFree : Kept s (s.setFree pa) := ⟨rfl, rfl, rfl, rfl, rfl⟩

theorem kept_setWord : Kept s (s.setWord a v) := kept_setPage

theorem kept_called : Kept s s.called := ⟨rfl, rfl, rfl, rfl, rfl⟩

end

/-- The owner that the entry with key `k` at depth `d` of table `r` stands for. -/
def place (r : Tab) (d k : Nat) : Owner := if d = 2 then .user r k else .node r (d + 1) k

section
variable {L : Layout} {X : Pins} {s s' : Sys} {T T' : Temps} {r r' : Tab} {d k q pa : Nat}

theorem root_congr (hk : Kept s s') (htab : T'.tab = T.tab) : root s' T' r = root s T r := by
  cases r with
  | none => exact htab
  | some i => simp only [root, hk.proc]

theorem ent_kept (hk : Kept s s') (htab : T'.tab = T.tab) (hpage : s'.page = s.page) :
    ent s' T' r d k = ent s T r d k := by
  simp only [ent, root_congr hk htab, hpage]

def Unmoved (s : Sys) (T : Temps) (s' : Sys) (T' : Temps) : Owner → Prop
  | .node r (d + 1) k => d ≤ 1 → ent s' T' r d k = ent s T r d k
  | .user r v => ent s' T' r 2 v = ent s T r 2 v
  | .temp pa => pa ∈ T'.pages ↔ pa ∈ T.pages
  | _ => True

theorem own_eq (hk : Kept s s') (htab : T'.tab = T.tab) {x : Owner} (hx : Unmoved s T s' T' x) :
    own s' T' x = own s T x := by
  cases x with
  | node r d k =>
    by_cases hd : d ≤ 2
    · rw [own_node hd, own_node hd]
      cases d with
      | zero => simp only [nd, root_congr hk htab]
      | succ d => rw [nd, nd, hx (by omega)]
    · simp only [own, if_neg hd]
  | user r v => simp only [own, show ent s' T' r 2 v = ent s T r 2 v from hx]
  | frame i => simp only [own, hk.proc]
  | pipe pa => simp only [own, hk.pipes]
  | kernel pa => simp only [own, hk.kernel]
  | temp pa => simp only [own, show pa ∈ T'.pages ↔ pa ∈ T.pages from hx]

theorem own_congr (hk : Kept s s') (htab : T'.tab = T.tab) (hent : ∀ r d k, d ≤ 2 → ent s' T' r d k = ent s T r d k)
    {x : Owner} (hpages : ∀ pa, x = .temp pa → (pa ∈ T'.pages ↔ pa ∈ T.pages)) : own s' T' x = own s T x := by
  refine own_eq hk htab ?_
  cases x with
  | node r d k =>
    cases d with
    | zero => trivial
    | succ d => exact fun hd => hent r d k (by omega)
  | user r v => exact hent r 2 v (le_refl 2)
  | temp pa => exact hpages pa rfl
  | _ => trivial

theorem own_off {c : Nat} (hk : Kept s s') (htab : T'.tab = T.tab)
    (hent : ∀ r' d' k', d' ≤ 2 → ¬(r' = r ∧ d' = d ∧ k' = k) → ent s' T' r' d' k' = ent s T r' d' k')
    (hpages : ∀ pa, pa ≠ c → (pa ∈ T'.pages ↔ pa ∈ T.pages)) {x : Owner} (hx : x ≠ place r d k) (hc : x ≠ .temp c) :
    own s' T' x = own s T x := by
  refine own_eq hk htab ?_
  cases x with
  | node r' d' k' =>
    cases d' with
    | zero => trivial
    | succ d' =>
      refine fun hd => hent r' d' k' (by omega) ?_
      rintro ⟨rfl, rfl, rfl⟩
      exact hx (by rw [place, if_neg (by omega)])
  | user r' v =>
    refine hent r' 2 v (le_refl 2) ?_
    rintro ⟨rfl, rfl, rfl⟩
    exact hx (if_pos rfl).symm
  | temp pa => exact hpages pa fun he => hc (he ▸ rfl)
  | _ => trivial

theorem Pinned.move (h : Pinned X s T) (hpage : ∀ pa, X pa ≠ none → s'.page pa = s.page pa)
    (hown : ∀ (o : Owner) pa, X.Keeps o → X pa ≠ none → own s T o = some pa → ∃ o' : Owner, X.Keeps o' ∧ own s' T' o' = some pa) :
    Pinned X s' T' := by
  intro pa b hb
  obtain ⟨hpa, o, hdata, ho⟩ := h pa b hb
  have hne : X pa ≠ none := by rw [hb]; exact Option.some_ne_none b
  exact ⟨(hpage pa hne).trans hpa, hown o pa hdata hne ho⟩

theorem Pinned.congr (h : Pinned X s T) (hpage : ∀ pa, X pa ≠ none → s'.page pa = s.page pa)
    (hown : ∀ o : Owner, own s' T' o = own s T o) : Pinned X s' T' :=
  h.move hpage fun o _ hdata _ ho => ⟨o, hdata, (hown o).trans ho⟩

theorem owners_move {o u : Owner} {c : Nat} (ho : own s T o = some c) (hu : own s T u = none) (hu' : own s' T' u = some c)
    (hrest : ∀ x, x ≠ o → x ≠ u → own s' T' x = own s T x) (hdata : X c ≠ none → X.Keeps u) :
    ∀ (x : Owner) pa, X.Keeps x → X pa ≠ none → own s T x = some pa → ∃ x' : Owner, X.Keeps x' ∧ own s' T' x' = some pa := by
  intro x pa hx hne hown
  by_cases hxo : x = o
  · rw [hxo, ho] at hown
    obtain rfl := Option.some.inj hown
    exact ⟨u, hdata hne, hu'⟩
  · refine ⟨x, hx, (hrest x hxo fun hxu => ?_).trans hown⟩
    rw [hxu, hu] at hown
    cases hown

namespace Rep

theorem stock (h : Rep L X s T) {o : Owner} (ho : own s T o = some pa) : Stock L pa := by
  obtain ⟨l, -, hex⟩ := h.exact
  exact hex.own_mem o pa ho

theorem inj (h : Rep L X s T) {o u : Owner} (ho : own s T o = some pa) (hu : own s T u = some pa) : o = u := by
  obtain ⟨l, -, hex⟩ := h.exact
  exact hex.inj o u pa ho hu

theorem stock_nd (h : Rep L X s T) (hd : d ≤ 2) (hq : nd s T r d k = some q) : Stock L q :=
  h.stock (o := .node r d k) ((own_node hd).trans hq)

theorem nd_inj (h : Rep L X s T) {d' k' : Nat} (hd : d ≤ 2) (hd' : d' ≤ 2) (hq : nd s T r d k = some q)
    (hq' : nd s T r' d' k' = some q) : r' = r ∧ d' = d ∧ k' = k := by
  have := h.inj (o := .node r' d' k') (u := .node r d k) ((own_node hd').trans hq') ((own_node hd).trans hq)
  injection this with h1 h2 h3
  exact ⟨h1, h2, h3⟩

theorem not_node (h : Rep L X s T) {o : Owner} (ho : own s T o = some pa) (hdata : o.Data)
    (hd : d ≤ 2) : nd s T r d k ≠ some pa :=
  fun hq => hdata r d k (h.inj ho ((own_node hd).trans hq))

theorem unpinned_nd [hr : X.Open r] (h : Rep L X s T) (hd : d ≤ 2) (hq : nd s T r d k = some q) : X q = none := by
  cases hX : X q with
  | none => rfl
  | some b =>
    obtain ⟨-, o, hkeeps, ho⟩ := h.pins q b hX
    exact absurd (hkeeps r d k (h.inj ho ((own_node hd).trans hq))) hr.out

theorem unpinned_free (h : Rep L X s T) (hne : s.freelist ≠ 0) : X s.freelist = none := by
  cases hX : X s.freelist with
  | none => rfl
  | some b =>
    obtain ⟨-, o, -, ho⟩ := h.pins _ b hX
    obtain ⟨l, hc, hex⟩ := h.exact
    cases l with
    | nil => exact absurd hc hne
    | cons q l =>
      rw [hc.1] at ho
      exact absurd List.mem_cons_self (hex.held o q ho)

theorem ne_pinned {c : Nat} (hX : X pa = none) (hc : X c ≠ none) : c ≠ pa := fun he => hc (he ▸ hX)

theorem forget {X' : Pins} (h : Rep L X s T) (hX : X'.Le X) : Rep L X' s T := by
  refine ⟨h.exact, fun pa b hb => ?_, h.inner, h.leaf, h.pipes, h.kernel⟩
  obtain ⟨hpa, o, hkeeps, ho⟩ := h.pins pa b (hX.page pa b hb)
  exact ⟨hpa, o, fun r d k he => hX.frozen ▸ hkeeps r d k he, ho⟩

theorem forgetAll (h : Rep L X s T) : Rep L .none s T := ⟨h.exact, nofun, h.inner, h.leaf, h.pipes, h.kernel⟩

theorem pin (h : Rep L X s T) {o : Owner} {x : Option Page} (hdata : o.Data) (ho : own s T o = some pa)
    (hx : ∀ b, x = some b → s.page pa = b) : Rep L (X.set pa x) s T := by
  refine ⟨h.exact, fun pa' b hb => ?_, h.inner, h.leaf, h.pipes, h.kernel⟩
  by_cases he : pa' = pa
  · subst he
    rw [Pins.set_self] at hb
    exact ⟨hx b hb, o, hdata.keeps, ho⟩
  · rw [Pins.set_of_ne he] at hb
    exact h.pins pa' b hb

theorem quiet (h : Rep L X s T) (hpipes : s'.pipes = s.pipes) (hkernel : s'.kernel = s.kernel)
    (hent : ∀ r d k, d ≤ 2 → ent s' T' r d k = ent s T r d k)
    (hexact : ∃ l, Chain s'.page s'.freelist l ∧ Exact (Stock L) l (own s' T')) (hpins : Pinned X s' T') :
    Rep L X s' T' where
  exact := hexact
  pins := hpins
  inner r d k hd := by
    rw [hent r d k (by omega)]
    exact h.inner r d k hd
  leaf r v := by
    rw [hent r 2 v (le_refl 2)]
    exact h.leaf r v
  pipes := hpipes ▸ h.pipes
  kernel := hkernel ▸ h.kernel

theorem write (h : Rep L X s T) {o : Owner} {b : Page} (ho : own s T o = some pa) (hdata : o.Data)
    (hX : X pa = none) :
    Rep L X (s.setPage pa b) T ∧ ∀ r d k, d ≤ 2 → ent (s.setPage pa b) T r d k = ent s T r d k := by
  have hent : ∀ r d k, d ≤ 2 → ent (s.setPage pa b) T r d k = ent s T r d k := fun r d k hd => by
    refine ent_congr rfl (fun d k q hd hq => Function.update_of_ne ?_ _ _) hd
    rintro rfl
    exact h.not_node ho hdata hd hq
  obtain ⟨l, hc, hex⟩ := h.exact
  have hown : ∀ x, own (s.setPage pa b) T x = own s T x := fun _ => own_congr kept_setPage rfl hent fun _ _ => Iff.rfl
  refine ⟨h.quiet rfl rfl hent ⟨l, ?_, hex.congr hown⟩
    (h.pins.congr (fun c hc => Function.update_of_ne (ne_pinned hX hc) _ _) hown), hent⟩
  refine hc.congr fun q hq => Function.update_of_ne ?_ _ _
  rintro rfl
  exact hex.held o q ho hq

theorem own_temp (hpa : pa ∈ T.pages) : own s T (.temp pa) = some pa := by simp only [own, hpa, if_true]

theorem own_temp_none (hpa : pa ∉ T.pages) : own s T (.temp pa) = none := by simp only [own, hpa, if_false]

theorem own_add {c : Nat} : own s (T.add c) (.temp c) = some c := own_temp (T := T.add c) (Finset.mem_insert_self c T.pages)

theorem own_drop : own s (T.drop pa) (.temp pa) = none := own_temp_none (T := T.drop pa) (Finset.notMem_erase pa T.pages)

end Rep

theorem word_aligned (h : pa % PGSIZE = 0) : s.word pa = (s.page pa).le 0 8 := by
  have hd : pgRoundDown pa = pa := Nat.div_mul_cancel (Nat.dvd_of_mod_eq_zero h)
  rw [Sys.word, hd, h]

def Sys.freed (s : Sys) (pa : Nat) : Sys := ((s.setPage pa (Bytes.fill 1)).setWord pa s.freelist).setFree pa

theorem freed_eq (h : pa % PGSIZE = 0) :
    s.freed pa = (s.setPage pa (Bytes.put (Bytes.fill 1) 0 8 s.freelist)).setFree pa := by
  have hd : pgRoundDown pa = pa := Nat.div_mul_cancel (Nat.dvd_of_mod_eq_zero h)
  simp only [Sys.freed, Sys.setWord, Sys.setPage, Sys.setFree, hd, h, Function.update_self, Function.update_idem]

theorem kept_freed : Kept s (s.freed pa) := ⟨rfl, rfl, rfl, rfl, rfl⟩

namespace Rep

theorem freelist_lt (h : Rep L X s T) : s.freelist < 2 ^ 64 := by
  obtain ⟨l, hc, hex⟩ := h.exact
  cases l with
  | nil => rw [show s.freelist = 0 from hc]; decide
  | cons q l =>
    obtain ⟨hq, -, -⟩ := hc
    have := (hex.free_mem q List.mem_cons_self).lt
    omega

theorem alloc (h : Rep L X s T) (hr : s.freelist ≠ 0) :
    Stock L s.freelist ∧ s.freelist ∉ T.pages ∧ X s.freelist = none ∧
      Rep L X (s.setFree (s.word s.freelist)) (T.add s.freelist) := by
  have hX := h.unpinned_free hr
  obtain ⟨l, hc, hex⟩ := h.exact
  cases l with
  | nil => exact absurd hc hr
  | cons q l =>
    obtain ⟨hq, -, hl⟩ := hc
    have hstock := hex.free_mem q List.mem_cons_self
    have hnot : q ∉ T.pages := fun hq => hex.held (.temp q) q (own_temp hq) List.mem_cons_self
    rw [hq] at hX
    rw [hq, word_aligned hstock.1]
    generalize (s.page q).le 0 8 = next at hl
    have hent : ∀ r d k, ent (s.setFree next) (T.add q) r d k = ent s T r d k :=
      fun r d k => ent_kept kept_setFree Temps.add_tab rfl
    have hown : ∀ x, x ≠ .temp q → own (s.setFree next) (T.add q) x = own s T x := by
      refine fun x hx => own_congr kept_setFree Temps.add_tab (fun r d k _ => hent r d k) fun pa hpa => ?_
      have hne : pa ≠ q := fun he => hx (hpa.trans (he ▸ rfl))
      simp only [Temps.add, Finset.mem_insert, hne, false_or]
    refine ⟨hstock, hnot, hX, h.quiet rfl rfl (fun r d k _ => hent r d k) ⟨l, hl, hex.take (o := .temp q)
      (own_temp_none hnot) own_add hown⟩ (h.pins.move (fun _ _ => rfl) fun o pa hdata _ ho => ⟨o, hdata, ?_⟩)⟩
    rw [hown o fun he => ?_, ho]
    rw [he, own_temp_none hnot] at ho
    cases ho

theorem free (h : Rep L X s T) (hpa : pa ∈ T.pages) (hX : X pa = none) :
    Rep L X (s.freed pa) (T.drop pa) ∧ ∀ r d k, d ≤ 2 → ent (s.freed pa) (T.drop pa) r d k = ent s T r d k := by
  have ho := own_temp (s := s) hpa
  have hnext : (Bytes.put (Bytes.fill 1) 0 8 s.freelist : Page).le 0 8 = s.freelist :=
    Bytes.le_put (by decide) h.freelist_lt
  rw [freed_eq (h.stock ho).1]
  generalize (Bytes.put (Bytes.fill 1) 0 8 s.freelist : Page) = b at hnext
  obtain ⟨hw, hent⟩ := h.write (b := b) ho nofun hX
  have hent' : ∀ r d k, ent ((s.setPage pa b).setFree pa) (T.drop pa) r d k = ent (s.setPage pa b) T r d k :=
    fun r d k => ent_kept kept_setFree Temps.drop_tab rfl
  refine ⟨?_, fun r d k hd => (hent' r d k).trans (hent r d k hd)⟩
  obtain ⟨l, hc, hex⟩ := hw.exact
  have hown : ∀ x, x ≠ .temp pa → own ((s.setPage pa b).setFree pa) (T.drop pa) x = own (s.setPage pa b) T x := by
    refine fun x hx => own_congr kept_setFree Temps.drop_tab (fun r d k _ => hent' r d k) fun pa' hpa' => ?_
    have hne : pa' ≠ pa := fun he => hx (hpa'.trans (he ▸ rfl))
    simp only [Temps.drop, Finset.mem_erase, hne, ne_eq, not_false_eq_true, true_and]
  refine hw.quiet rfl rfl (fun r d k _ => hent' r d k) ⟨pa :: l, ⟨rfl, (h.stock ho).ne_zero, ?_⟩,
    hex.give (o := .temp pa) (own_temp hpa) own_drop hown⟩
    (hw.pins.move (fun _ _ => rfl) fun o pa' hdata hne ho' => ⟨o, hdata, ?_⟩)
  · simp only [Sys.setPage, Sys.setFree, Function.update_self]
    rw [hnext]
    exact hc
  · rw [hown o fun he => ?_, ho']
    rw [he, own_temp hpa] at ho'
    exact hne (Option.some.inj ho' ▸ hX)

end Rep

theorem setWord_entry {i x : Nat} (hq : q % PGSIZE = 0) (hi : i < 512) :
    s.setWord (q + 8 * i) x = s.setPage q ((s.page q).put (8 * i) 8 x) := by
  have h1 : pgRoundDown (q + 8 * i) = q := by
    simp only [pgRoundDown, PGSIZE] at hq ⊢
    omega
  have h2 : (q + 8 * i) % PGSIZE = 8 * i := by
    simp only [PGSIZE] at hq ⊢
    omega
  rw [Sys.setWord, h1, h2]

theorem word_entry {i : Nat} (hq : q % PGSIZE = 0) (hi : i < 512) : s.word (q + 8 * i) = pteAt s.page q i := by
  have h1 : pgRoundDown (q + 8 * i) = q := by
    simp only [pgRoundDown, PGSIZE] at hq ⊢
    omega
  have h2 : (q + 8 * i) % PGSIZE = 8 * i := by
    simp only [PGSIZE] at hq ⊢
    omega
  rw [Sys.word, h1, h2, pteAt]

theorem pteAt_put {pg : Nat → Page} {i j x : Nat} (hi : i < 512) (hx : x < 2 ^ 64) :
    pteAt (Function.update pg q ((pg q).put (8 * i) 8 x)) q j = if j = i then x else pteAt pg q j := by
  rw [pteAt, Function.update_self]
  by_cases hj : j = i
  · rw [if_pos hj, hj]
    exact Bytes.le_put (by simp only [PGSIZE]; omega) hx
  · rw [if_neg hj]
    exact Bytes.le_put_of_disjoint (by omega)

theorem ent_store {x d' k' : Nat} (h : Rep L X s T) (hd : d ≤ 2) (hq : nd s T r d (k / 512) = some q) (hx : x < 2 ^ 64)
    (hold : d < 2 → ∀ c, target (ent s T r d k) = some c → Barren s.page c)
    (hnew : d < 2 → ∀ c, target x = some c → c ≠ q ∧ Barren s.page c) (hd' : d' ≤ 2) :
    ent (s.setWord (q + 8 * (k % 512)) x) T r' d' k' = if r' = r ∧ d' = d ∧ k' = k then x else ent s T r' d' k' := by
  have hi : k % 512 < 512 := Nat.mod_lt _ (by omega)
  rw [setWord_entry (h.stock_nd hd hq).1 hi]
  have hne : ∀ {c : Nat}, c ≠ q → (s.setPage q ((s.page q).put (8 * (k % 512)) 8 x)).page c = s.page c :=
    fun hc => Function.update_of_ne hc _ _
  by_cases hr : r' = r
  · subst hr
    cases hp : root s T r' with
    | none =>
      rw [nd_of_noroot hp] at hq
      cases hq
    | some p =>
      rw [ent_of_root hp] at hold
      rw [ent_of_root hp, ent_of_root (T := T) (show root (s.setPage q _) T r' = some p from hp)]
      refine (entry_edit (x := x) ((nd_of_root hp).symm.trans hq) ?_ (fun i _ => pteAt_put hi hx)
        (fun d k c _ _ hc => hne hc) hold ?_ hd').trans ?_
      · intro d'' k'' hd'' hq''
        exact (h.nd_inj hd hd'' hq ((nd_of_root hp).trans hq'')).2
      · intro hlt c hc i hi
        obtain ⟨hcq, hb⟩ := hnew hlt c hc
        rw [← hb i hi]
        exact pteAt_congr (hne hcq)
      · simp only [true_and]
  · rw [if_neg fun he => hr he.1]
    refine ent_congr rfl (fun d'' k'' c hd'' hc => hne ?_) hd'
    rintro rfl
    exact hr (h.nd_inj hd hd'' hq hc).1

theorem own_place (hk : d = 2 → k < USERPAGES) (hd : d ≤ 2) : own s T (place r d k) = target (ent s T r d k) := by
  by_cases h2 : d = 2
  · subst h2
    simp only [place, own, if_true, hk rfl]
  · rw [place, if_neg h2, own_node (by omega), nd]

end

section
variable {L : Layout} {X : Pins} {s : Sys} {T T' : Temps} {r : Tab} {d k q x c : Nat}

/-- What a store into one entry needs to keep the ownership of pages exact. -/
structure Entry (s : Sys) (T : Temps) (r : Tab) (d k q x : Nat) : Prop where
  depth : d ≤ 2
  page : nd s T r d (k / 512) = some q
  inner : d < 2 → Inner x
  leaf : d = 2 → Leaf x
  old : d < 2 → ∀ c, target (ent s T r d k) = some c → Barren s.page c
  new : d < 2 → ∀ c, target x = some c → c ≠ q ∧ Barren s.page c

theorem Entry.lt (h : Entry s T r d k q x) : x < 2 ^ 64 := by
  rcases Nat.lt_or_ge d 2 with hd | hd
  · rcases h.inner hd with rfl | ⟨pa, hp⟩
    · decide
    · exact hp.lt64
  · rcases h.leaf (Nat.le_antisymm h.depth hd) with rfl | ⟨pa, f, hp, -, -⟩
    · decide
    · exact hp.lt64

def Stored (s : Sys) (T : Temps) (s' : Sys) (T' : Temps) (r : Tab) (d k x : Nat) : Prop :=
  ∀ r' d' k', d' ≤ 2 → ent s' T' r' d' k' = if r' = r ∧ d' = d ∧ k' = k then x else ent s T r' d' k'

theorem Stored.off {s' : Sys} (h : Stored s T s' T' r d k x) {r' : Tab} {d' k' : Nat} (hd : d' ≤ 2)
    (hne : ¬(r' = r ∧ d' = d ∧ k' = k)) : ent s' T' r' d' k' = ent s T r' d' k' := by
  rw [h r' d' k' hd, if_neg hne]

theorem Stored.at {s' : Sys} (h : Stored s T s' T' r d k x) (hd : d ≤ 2) : ent s' T' r d k = x := by
  rw [h r d k hd, if_pos ⟨rfl, rfl, rfl⟩]

namespace Rep

theorem stored (h : Rep L X s T) (he : Entry s T r d k q x) (htab : T'.tab = T.tab) :
    Stored s T (s.setWord (q + 8 * (k % 512)) x) T' r d k x := by
  intro r' d' k' hd'
  rw [← ent_store h he.depth he.page he.lt he.old he.new hd']
  exact ent_kept (Kept.refl _) htab rfl

theorem store [X.Open r] (h : Rep L X s T) (he : Entry s T r d k q x) (htab : T'.tab = T.tab)
    (hexact : ∀ l, Exact (Stock L) l (own s T) → Exact (Stock L) l (own (s.setWord (q + 8 * (k % 512)) x) T'))
    (hown : ∀ (o : Owner) pa, X.Keeps o → X pa ≠ none → own s T o = some pa →
      ∃ o' : Owner, X.Keeps o' ∧ own (s.setWord (q + 8 * (k % 512)) x) T' o' = some pa) :
    Rep L X (s.setWord (q + 8 * (k % 512)) x) T' := by
  have hst := h.stored he htab
  obtain ⟨l, hc, hex⟩ := h.exact
  have hset := setWord_entry (s := s) (x := x) (h.stock_nd he.depth he.page).1 (Nat.mod_lt k (by omega : 512 > 0))
  refine ⟨⟨l, ?_, hexact l hex⟩, h.pins.move (fun pa hpa => ?_) hown, fun r' d' k' hd' => ?_, fun r' v => ?_, h.pipes, h.kernel⟩
  · rw [hset]
    refine hc.congr fun p hp => Function.update_of_ne ?_ _ _
    rintro rfl
    exact hex.held _ p ((own_node he.depth).trans he.page) hp
  · rw [hset]
    exact Function.update_of_ne (ne_pinned (h.unpinned_nd he.depth he.page) hpa) _ _
  · rw [hst r' d' k' (by omega)]
    split
    · next hat => exact he.inner (hat.2.1 ▸ hd')
    · exact h.inner r' d' k' hd'
  · rw [hst r' 2 v (le_refl 2)]
    split
    · next hat => exact he.leaf hat.2.1.symm
    · exact h.leaf r' v

theorem attach [X.Open r] (h : Rep L X s T) (he : Entry s T r d k q x) (hk : d = 2 → k < USERPAGES) (h0 : ent s T r d k = 0)
    (hc : c ∈ T.pages) (ht : target x = some c) (hX : d < 2 → X c = none) :
    Rep L X (s.setWord (q + 8 * (k % 512)) x) (T.drop c) := by
  have hst := h.stored he (Temps.drop_tab (c := c))
  have hplace : own s T (place r d k) = none := by rw [own_place hk he.depth, h0, target_zero]
  have hplace' : own (s.setWord (q + 8 * (k % 512)) x) (T.drop c) (place r d k) = some c := by
    rw [own_place hk he.depth, hst.at he.depth, ht]
  have hoff : ∀ y, y ≠ .temp c → y ≠ place r d k → own (s.setWord (q + 8 * (k % 512)) x) (T.drop c) y = own s T y := by
    refine fun y hy hy' => own_off kept_setWord Temps.drop_tab (fun _ _ _ => hst.off) (fun pa hpa => ?_) hy' hy
    simp only [Temps.drop, Finset.mem_erase, hpa, ne_eq, not_false_eq_true, true_and]
  refine h.store he Temps.drop_tab (fun l hex => hex.move (o := .temp c) (u := place r d k) (own_temp hc) hplace own_drop
    hplace' hoff) (owners_move (own_temp hc) hplace hplace' hoff fun hne => ?_)
  -- a page-table page is not pinned
  rw [place, if_pos (Nat.le_antisymm he.depth (Nat.le_of_not_lt fun hlt => hne (hX hlt)))]
  exact nofun

theorem detach [X.Open r] (h : Rep L X s T) (he : Entry s T r d k q 0) (hk : d = 2 → k < USERPAGES)
    (ht : target (ent s T r d k) = some c) : Rep L X (s.setWord (q + 8 * (k % 512)) 0) (T.add c) := by
  have hst := h.stored he (Temps.add_tab (c := c))
  have hplace : own s T (place r d k) = some c := by rw [own_place hk he.depth, ht]
  have hnot : c ∉ T.pages := fun hc => by
    have := h.inj hplace (own_temp hc)
    simp only [place] at this
    split at this <;> cases this
  have hoff : ∀ y, y ≠ place r d k → y ≠ .temp c → own (s.setWord (q + 8 * (k % 512)) 0) (T.add c) y = own s T y := by
    refine fun y hy hy' => own_off kept_setWord Temps.add_tab (fun _ _ _ => hst.off) (fun pa hpa => ?_) hy hy'
    simp only [Temps.add, Finset.mem_insert, hpa, false_or]
  refine h.store he Temps.add_tab (fun l hex => hex.move hplace (own_temp_none hnot) ?_ own_add hoff)
    (owners_move hplace (own_temp_none hnot) own_add hoff fun _ => nofun)
  rw [own_place hk he.depth, hst.at he.depth, target_zero]

theorem setLeaf [X.Open r] (h : Rep L X s T) (he : Entry s T r 2 k q x)
    (hsame : USERPAGES ≤ k ∨ target x = target (ent s T r 2 k)) : Rep L X (s.setWord (q + 8 * (k % 512)) x) T := by
  have hst := h.stored he rfl
  have hown : ∀ y, own (s.setWord (q + 8 * (k % 512)) x) T y = own s T y := by
    intro y
    by_cases hy : y = .user r k
    · subst hy
      simp only [own]
      split
      · next hlt =>
        rw [hst.at (le_refl 2)]
        exact hsame.resolve_left (by omega)
      · rfl
    · refine own_eq kept_setWord rfl ?_
      cases y with
      | node r' d' k' =>
        cases d' with
        | zero => trivial
        | succ d' => exact fun hd => hst.off (by omega) (by omega)
      | user r' v =>
        refine hst.off (le_refl 2) ?_
        rintro ⟨rfl, -, rfl⟩
        exact hy rfl
      | temp pa => exact Iff.rfl
      | _ => trivial
  exact h.store he rfl (fun l hex => hex.congr hown) fun o _ hdata _ ho => ⟨o, hdata, (hown o).trans ho⟩

end Rep

end

end Xv6.Vm
