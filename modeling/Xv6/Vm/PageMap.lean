import Xv6.Vm.Ownership

/-! A page table as a partial map from page numbers to physical pages, for any client: all that it needs of the kernel
    is that the free list has none of its own pages. -/

namespace Xv6.Vm
open Lib

/-- What `walk` with `alloc = 0` finds for page number `v`: the physical page and the flags. -/
def pageMap (s : Sys) (p v : Nat) : Option (Nat × Nat) :=
  match walk p (v * PGSIZE) false s with
  | .ok pte t =>
    if pte = 0 then none
    else if has (t.word pte) PTE_V then some (pte2pa (t.word pte), pteFlags (t.word pte))
    else none
  | .error _ _ => none

structure Sound (pa : Nat) : Prop where
  ne_zero : pa ≠ 0
  aligned : pa % PGSIZE = 0
  lt : pa < 2 ^ 56

structure Free (s : Sys) (l : List Nat) : Prop where
  chain : Chain s.page s.freelist l
  nodup : l.Nodup
  sound : ∀ q ∈ l, Sound q

def Within (s : Sys) (p q : Nat) : Prop := ∃ d k, d ≤ 2 ∧ node s.page p d k = some q

structure Loose (s : Sys) (p q : Nat) : Prop where
  sound : Sound q
  within : ¬ Within s p q
  used : ∀ l, Free s l → q ∉ l

/-- The pages below the root form a tree, apart from the free pages. -/
structure Table (s : Sys) (p : Nat) : Prop where
  free : ∃ l, Free s l ∧ ∀ q ∈ l, ¬ Within s p q
  root : Sound p
  inner : ∀ d k, d < 2 → entry s.page p d k = 0 ∨ ∃ q, Sound q ∧ entry s.page p d k = pa2pte q ||| PTE_V
  tree : ∀ d k d' k' q, d ≤ 2 → d' ≤ 2 → node s.page p d k = some q → node s.page p d' k' = some q → d' = d ∧ k' = k
  leaf : ∀ v, entry s.page p 2 v = 0 ∨
    ∃ pa f, Sound pa ∧ f < 1024 ∧ has f PTE_V = true ∧ entry s.page p 2 v = pa2pte pa ||| f

def Same (s s' : Sys) (p : Nat) : Prop := ∀ d k, d ≤ 2 → entry s'.page p d k = entry s.page p d k

def Alike (s s' : Sys) (p : Nat) : Prop := ∀ v, entry s'.page p 2 v = entry s.page p 2 v

section
variable {s s' s'' : Sys} {p q c d k x : Nat} {l l' : List Nat}

theorem Chain.unique {pg : Nat → Page} {a : Nat} (h : Chain pg a l) (h' : Chain pg a l') : l = l' := by
  induction l generalizing a l' with
  | nil =>
    cases l' with
    | nil => rfl
    | cons q l' => exact absurd (h'.1.symm.trans h) h'.2.1
  | cons q l ih =>
    cases l' with
    | nil => exact absurd (h.1.symm.trans h') h.2.1
    | cons q' l' =>
      obtain ⟨rfl, -, hl⟩ := h
      obtain ⟨rfl, -, hl'⟩ := h'
      rw [ih hl hl']

theorem Sound.target (h : Sound c) : target (pa2pte c ||| PTE_V) = some c := by
  rw [Vm.target, has_or h.lt (by decide), if_pos (by decide), pte2pa_or h.lt h.aligned (by decide)]

theorem Sound.lt64 (h : Sound c) {f : Nat} (hf : f < 1024) : pa2pte c ||| f < 2 ^ 64 := pa2pte_or_lt h.lt hf

theorem Same.node (h : Same s s' p) (hd : d ≤ 2) : node s'.page p d k = node s.page p d k := by
  cases d with
  | zero => simp only [Vm.node]
  | succ d => rw [node_succ, node_succ, h d k (by omega)]

theorem Same.within (h : Same s s' p) : Within s' p q ↔ Within s p q :=
  ⟨fun ⟨d, k, hd, hq⟩ => ⟨d, k, hd, (h.node hd).symm.trans hq⟩, fun ⟨d, k, hd, hq⟩ => ⟨d, k, hd, (h.node hd).trans hq⟩⟩

theorem Same.trans (h : Same s s' p) (h' : Same s' s'' p) : Same s s'' p := fun d k hd => (h' d k hd).trans (h d k hd)

theorem Same.alike (h : Same s s' p) : Alike s s' p := fun v => h 2 v (le_refl 2)

theorem Alike.trans (h : Alike s s' p) (h' : Alike s' s'' p) : Alike s s'' p := fun v => (h' v).trans (h v)

theorem Table.same (h : Table s p) (hs : Same s s' p) (hf : ∃ l, Free s' l ∧ ∀ q ∈ l, ¬ Within s p q) : Table s' p where
  free := hf.imp fun _ ⟨h1, h2⟩ => ⟨h1, fun q hq hw => h2 q hq (hs.within.mp hw)⟩
  root := h.root
  inner d k hd := by rw [hs d k (by omega)]; exact h.inner d k hd
  tree d k d' k' q hd hd' hq hq' := h.tree d k d' k' q hd hd' ((hs.node hd).symm.trans hq) ((hs.node hd').symm.trans hq')
  leaf v := by rw [hs 2 v (le_refl 2)]; exact h.leaf v

theorem same_of_pages (h : ∀ q, Within s p q → s'.page q = s.page q) : Same s s' p := fun _ _ hd =>
  entry_congr (fun d k q hd hq => h q ⟨d, k, hd, hq⟩) hd

theorem Loose.of_free (h : Free s l) (hs : Sound q) (hw : ¬ Within s p q) (hq : q ∉ l) : Loose s p q :=
  ⟨hs, hw, fun _ h' => h.chain.unique h'.chain ▸ hq⟩

theorem Table.write (h : Table s p) (hq : Loose s p q) (b : Page) :
    Table (s.setPage q b) p ∧ Same s (s.setPage q b) p ∧ Loose (s.setPage q b) p q := by
  have hsame : Same s (s.setPage q b) p := same_of_pages fun c hc =>
    Function.update_of_ne (by rintro rfl; exact hq.within hc) _ _
  obtain ⟨l, hl, hout⟩ := h.free
  have hfree : Free (s.setPage q b) l := by
    refine ⟨hl.chain.congr fun c hc => Function.update_of_ne ?_ _ _, hl.nodup, hl.sound⟩
    rintro rfl
    exact hq.used l hl hc
  exact ⟨h.same hsame ⟨l, hfree, hout⟩, hsame, .of_free hfree hq.sound (fun hw => hq.within (hsame.within.mp hw)) (hq.used l hl)⟩

theorem Table.called (h : Table s p) : Table s.called p ∧ Same s s.called p := by
  obtain ⟨l, hl, hout⟩ := h.free
  exact ⟨h.same (fun _ _ _ => rfl) ⟨l, ⟨hl.chain, hl.nodup, hl.sound⟩, hout⟩, fun _ _ _ => rfl⟩

theorem Free.wp_kalloc {Q : Nat → Sys → Prop} {E : Stop → Sys → Prop} (h : Free s l) (hE : E (.call none) s)
    (hfail : ∀ s', Free s' l → s'.page = s.page → Q 0 s')
    (hok : ∀ q s' l', l = q :: l' → Free s' l' → (∀ c, c ≠ q → s'.page c = s.page c) → Q q s') : wp kalloc Q E s := by
  have hcalled : Free s.called l := ⟨h.chain, h.nodup, h.sound⟩
  unfold kalloc
  rw [wp_bind]
  refine wp_look hE ?_
  simp only [wp_bind, wp_view, wp_ite]
  split
  · exact hfail _ hcalled rfl
  · split
    · exact hfail _ hcalled rfl
    · next hne =>
      cases l with
      | nil => exact absurd hcalled.chain hne
      | cons q l =>
        obtain ⟨hq, -, hchain⟩ := hcalled.chain
        obtain ⟨hqn, hnodup⟩ := List.nodup_cons.mp h.nodup
        have hnext : s.called.word s.called.freelist = (s.called.page q).le 0 8 := by
          rw [hq, word_aligned (h.sound q List.mem_cons_self).aligned]
        simp only [wp_load, wp_change, wp_memset, wp_pure]
        rw [hnext, hq]
        generalize (s.called.page q).le 0 8 = next at hchain
        refine hok q _ l rfl ⟨hchain.congr fun c hc => ?_, hnodup, fun c hc => h.sound c (List.mem_cons_of_mem _ hc)⟩
          fun c hc => ?_
        · exact Function.update_of_ne (by rintro rfl; exact hqn hc) _ _
        · exact Function.update_of_ne hc _ _

theorem Table.wp_kalloc {Q : Nat → Sys → Prop} {E : Stop → Sys → Prop} (h : Table s p) (hE : E (.call none) s)
    (hfail : ∀ s', Table s' p → Same s s' p → Q 0 s')
    (hok : ∀ q s', Table s' p → Same s s' p → Loose s' p q → Q q s') : wp kalloc Q E s := by
  obtain ⟨l, hl, hout⟩ := h.free
  refine hl.wp_kalloc hE (fun s' hl' hpage => ?_) fun q s' l' he hl' hpage => ?_
  · have hsame : Same s s' p := same_of_pages fun q _ => by rw [hpage]
    exact hfail s' (h.same hsame ⟨l, hl', hout⟩) hsame
  · subst he
    have hq := hout q List.mem_cons_self
    have hsame : Same s s' p := same_of_pages fun c hc => hpage c (by rintro rfl; exact hq hc)
    exact hok q s' (h.same hsame ⟨l', hl', fun c hc => hout c (List.mem_cons_of_mem _ hc)⟩) hsame
      (.of_free hl' (hl.sound q List.mem_cons_self) (fun hw => hq (hsame.within.mp hw)) (List.nodup_cons.mp hl.nodup).1)

theorem Table.of_barren (hfree : Free s l) (hp : Sound p) (hl : p ∉ l) (hb : Barren s.page p) : Table s p := by
  have hent : ∀ d k, d ≤ 2 → entry s.page p d k = 0 := fun d k _ => entry_barren hb
  have hnode : ∀ d k q, d ≤ 2 → node s.page p d k = some q → d = 0 ∧ k = 0 ∧ q = p := fun d k q hd hq => by
    cases d with
    | zero =>
      simp only [node] at hq
      split at hq <;> cases hq
      exact ⟨rfl, ‹_›, rfl⟩
    | succ d => rw [node_succ, hent d k (by omega), target_zero] at hq; cases hq
  refine ⟨⟨l, hfree, fun q hq hn => ?_⟩, hp, fun d k hd => .inl (hent d k (by omega)),
    fun d k d' k' q hd hd' hq hq' => ?_, fun v => .inl (hent 2 v (le_refl 2))⟩
  · obtain ⟨d, k, hd, hn⟩ := hn
    obtain ⟨-, -, rfl⟩ := hnode d k q hd hn
    exact hl hq
  · obtain ⟨rfl, rfl, -⟩ := hnode d k q hd hq
    obtain ⟨rfl, rfl, -⟩ := hnode d' k' q hd' hq'
    exact ⟨rfl, rfl⟩

theorem Table.sound (h : Table s p) (hq : Within s p q) : Sound q := by
  obtain ⟨d, k, hd, hq⟩ := hq
  cases d with
  | zero =>
    simp only [node] at hq
    split at hq <;> cases hq
    exact h.root
  | succ d =>
    rw [node_succ] at hq
    rcases h.inner d k (by omega) with h0 | ⟨c, hc, he⟩
    · rw [h0, target_zero] at hq; cases hq
    · rw [he, hc.target] at hq
      cases hq
      exact hc

theorem Table.edit (h : Table s p) (hd : d ≤ 2) (hq : node s.page p d (k / 512) = some q) (hx : x < 2 ^ 64)
    (hold : d < 2 → entry s.page p d k = 0) (hnew : d < 2 → ∀ c, target x = some c → c ≠ q ∧ Barren s.page c) (d' k' : Nat)
    (hd' : d' ≤ 2) :
    entry (s.setWord (q + 8 * (k % 512)) x).page p d' k' = if d' = d ∧ k' = k then x else entry s.page p d' k' := by
  have hi : k % 512 < 512 := Nat.mod_lt _ (by omega)
  have hal := (h.sound ⟨d, _, hd, hq⟩).aligned
  have hne : ∀ {c : Nat}, c ≠ q → (s.setPage q ((s.page q).put (8 * (k % 512)) 8 x)).page c = s.page c :=
    fun hc => Function.update_of_ne hc _ _
  rw [setWord_entry hal hi]
  refine entry_edit hq (fun d'' k'' hd'' hq'' => h.tree d _ d'' k'' q hd hd'' hq hq'') (fun i _ => pteAt_put hi hx)
    (fun d k c _ _ hc => hne hc) (fun hlt c hc => ?_) (fun hlt c hc i hi => ?_) hd'
  · rw [hold hlt, target_zero] at hc
    cases hc
  · obtain ⟨hcq, hb⟩ := hnew hlt c hc
    rw [← hb i hi]
    exact pteAt_congr (hne hcq)

theorem Table.free_setWord (h : Table s p) {i : Nat} (hq : Within s p q) (hi : i < 512) (x : Nat) :
    ∃ l, Free (s.setWord (q + 8 * i) x) l ∧ Free s l ∧ ∀ c ∈ l, ¬ Within s p c := by
  obtain ⟨l, hl, hout⟩ := h.free
  refine ⟨l, ⟨hl.chain.congr fun c hc => ?_, hl.nodup, hl.sound⟩, hl, hout⟩
  rw [setWord_entry (h.sound hq).aligned hi]
  exact Function.update_of_ne (by rintro rfl; exact hout c hc hq) _ _

theorem Table.link (h : Table s p) (hd : d < 2) (hq : node s.page p d (k / 512) = some q) (h0 : entry s.page p d k = 0)
    (hc : Loose s p c) (hb : Barren s.page c) :
    Table (s.setWord (q + 8 * (k % 512)) (pa2pte c ||| PTE_V)) p ∧
      Alike s (s.setWord (q + 8 * (k % 512)) (pa2pte c ||| PTE_V)) p ∧
      node (s.setWord (q + 8 * (k % 512)) (pa2pte c ||| PTE_V)).page p (d + 1) k = some c := by
  have hwithin : Within s p q := ⟨d, _, by omega, hq⟩
  have hent := h.edit (x := pa2pte c ||| PTE_V) (by omega) hq (hc.sound.lt64 (by decide)) (fun _ => h0) fun _ c' hc' => by
    cases hc.sound.target.symm.trans hc'
    exact ⟨by rintro rfl; exact hc.within hwithin, hb⟩
  obtain ⟨l, hfree, hl, hout⟩ := h.free_setWord hwithin (Nat.mod_lt k (by omega)) (pa2pte c ||| PTE_V)
  generalize s.setWord (q + 8 * (k % 512)) (pa2pte c ||| PTE_V) = t at hent hfree
  -- the pages of the table are the old ones and the new one
  have hnew : node t.page p (d + 1) k = some c := by
    rw [node_succ, hent d k (by omega), if_pos ⟨rfl, rfl⟩, hc.sound.target]
  have hnode : ∀ d' k' q', d' ≤ 2 → node t.page p d' k' = some q' →
      (d' = d + 1 ∧ k' = k ∧ q' = c) ∨ node s.page p d' k' = some q' := fun d' k' q' hd' hq' => by
    cases d' with
    | zero => exact .inr hq'
    | succ d' =>
      rw [node_succ, hent d' k' (by omega)] at hq'
      split at hq'
      · next he =>
        obtain ⟨rfl, rfl⟩ := he
        exact .inl ⟨rfl, rfl, Option.some.inj (hq'.symm.trans hc.sound.target)⟩
      · exact .inr (node_succ.trans hq')
  refine ⟨⟨⟨l, hfree, fun q' hq' hw => ?_⟩, h.root, fun d' k' hd' => ?_, fun d1 k1 d2 k2 q' hd1 hd2 h1 h2 => ?_,
    fun v => ?_⟩, fun v => ?_, hnew⟩
  · obtain ⟨d', k', hd', hn⟩ := hw
    rcases hnode d' k' q' hd' hn with ⟨-, -, rfl⟩ | hn
    · exact hc.used l hl hq'
    · exact hout q' hq' ⟨d', k', hd', hn⟩
  · rw [hent d' k' (by omega)]
    split
    · exact .inr ⟨c, hc.sound, rfl⟩
    · exact h.inner d' k' hd'
  · rcases hnode d1 k1 q' hd1 h1 with ⟨rfl, rfl, rfl⟩ | h1'
    · rcases hnode d2 k2 q' hd2 h2 with ⟨rfl, rfl, -⟩ | h2'
      · exact ⟨rfl, rfl⟩
      · exact absurd ⟨d2, k2, hd2, h2'⟩ hc.within
    · rcases hnode d2 k2 q' hd2 h2 with ⟨rfl, rfl, rfl⟩ | h2'
      · exact absurd ⟨d1, k1, hd1, h1'⟩ hc.within
      · exact h.tree d1 k1 d2 k2 q' hd1 hd2 h1' h2'
  · rw [hent 2 v (le_refl 2), if_neg (by omega)]
    exact h.leaf v
  · rw [hent 2 v (le_refl 2), if_neg (by omega)]

theorem Table.setLeaf (h : Table s p) {v : Nat} (hq : node s.page p 2 (v / 512) = some q)
    (hx : x = 0 ∨ ∃ pa f, Sound pa ∧ f < 1024 ∧ has f PTE_V = true ∧ x = pa2pte pa ||| f) :
    Table (s.setWord (q + 8 * (v % 512)) x) p ∧
      (∀ v', entry (s.setWord (q + 8 * (v % 512)) x).page p 2 v' = if v' = v then x else entry s.page p 2 v') ∧
      ∀ c, Loose s p c → Loose (s.setWord (q + 8 * (v % 512)) x) p c := by
  have hwithin : Within s p q := ⟨2, _, le_refl 2, hq⟩
  have hlt : x < 2 ^ 64 := by
    rcases hx with rfl | ⟨pa, f, hpa, hf, -, rfl⟩
    · decide
    · exact hpa.lt64 hf
  have hent := h.edit (x := x) (le_refl 2) hq hlt (fun h2 => absurd h2 (by decide)) fun h2 => absurd h2 (by decide)
  obtain ⟨l, hfree, hl, hout⟩ := h.free_setWord hwithin (Nat.mod_lt v (by omega)) x
  generalize s.setWord (q + 8 * (v % 512)) x = t at hent hfree
  have hnode : ∀ d' k', d' ≤ 2 → node t.page p d' k' = node s.page p d' k' := fun d' k' hd' => by
    cases d' with
    | zero => simp only [node]
    | succ d' => rw [node_succ, node_succ, hent d' k' (by omega), if_neg (by omega)]
  have hin : ∀ c, Within t p c ↔ Within s p c := fun c => by
    constructor <;> rintro ⟨d', k', hd', hc⟩
    · exact ⟨d', k', hd', (hnode d' k' hd').symm.trans hc⟩
    · exact ⟨d', k', hd', (hnode d' k' hd').trans hc⟩
  refine ⟨⟨⟨l, hfree, fun c hc hw => hout c hc ((hin c).mp hw)⟩, h.root, fun d' k' hd' => ?_,
    fun d1 k1 d2 k2 q' hd1 hd2 h1 h2 => ?_, fun v' => ?_⟩, fun v' => ?_, fun c hc => ?_⟩
  · rw [hent d' k' (by omega), if_neg (by omega)]
    exact h.inner d' k' hd'
  · exact h.tree d1 k1 d2 k2 q' hd1 hd2 ((hnode d1 k1 hd1).symm.trans h1) ((hnode d2 k2 hd2).symm.trans h2)
  · rw [hent 2 v' (le_refl 2)]
    split
    · exact hx
    · exact h.leaf v'
  · rw [hent 2 v' (le_refl 2)]
    simp only [true_and]
  · exact .of_free hfree hc.sound (fun hw => hc.within ((hin c).mp hw)) (hc.used l hl)

theorem Table.wp_walkFrom {Q : Nat → Sys → Prop} {E : Stop → Sys → Prop} {alloc : Bool} {va v level : Nat}
    (hE : alloc = true → ∀ t, E (.call none) t) (hv : v = va / PGSIZE) (hlevel : level ≤ 2) (h : Table s p)
    (hq : node s.page p (2 - level) (v / 512 ^ level / 512) = some q)
    (hfound : ∀ s' q', (alloc = false → s' = s) → Table s' p → Alike s s' p → node s'.page p 2 (v / 512) = some q' →
      Q (q' + 8 * (v % 512)) s')
    (hnone : ∀ s', (alloc = false → s' = s ∧ node s.page p 2 (v / 512) = none) → Table s' p → Alike s s' p → Q 0 s') :
    wp (walkFrom va alloc level q) Q E s := by
  induction level generalizing s q with
  | zero =>
    rw [walkFrom, wp_pure]
    have hpx : px 0 va = v % 512 := by rw [px_eq, hv]; rfl
    rw [hpx]
    exact hfound s q (fun _ => rfl) h (fun _ => rfl) (by simpa using hq)
  | succ level ih =>
    obtain ⟨d, hd⟩ : ∃ d, d = 2 - (level + 1) := ⟨_, rfl⟩
    obtain ⟨k, hk⟩ : ∃ k, k = v / 512 ^ (level + 1) := ⟨_, rfl⟩
    have hk' : k = v / 512 ^ level / 512 := by rw [hk, Nat.pow_succ, Nat.div_div_eq_div_mul]
    have hd' : d + 1 = 2 - level := by omega
    have hpx : px (level + 1) va = k % 512 := px_key hv hk
    rw [← hd, ← hk] at hq
    have hal := (h.sound ⟨d, _, by omega, hq⟩).aligned
    have hi : k % 512 < 512 := Nat.mod_lt _ (by omega)
    have hent := entry_of_node hq
    rw [walkFrom]
    simp only [wp_bind, wp_load, hpx, word_entry hal hi, ← hent]
    split
    · next hvalid =>
      -- the page-table page exists
      have ht : node s.page p (d + 1) k = some (pte2pa (entry s.page p d k)) := by rw [node_succ, target, if_pos hvalid]
      exact ih (by omega) h (by rw [← hd', ← hk', ht]) hfound hnone
    · next hvalid =>
      have h0 : entry s.page p d k = 0 := by
        rcases h.inner d k (by omega) with h0 | ⟨c, hc, he⟩
        · exact h0
        · rw [he, has_or hc.lt (by decide)] at hvalid
          exact absurd (by decide) hvalid
      have hbelow : node s.page p (2 - level) (v / 512 ^ level / 512) = none := by
        rw [← hd', ← hk', node_succ, h0, target_zero]
      split
      · next halloc =>
        refine hnone s (fun _ => ⟨rfl, ?_⟩) h fun _ => rfl
        rcases level with - | level
        · simpa using hbelow
        · obtain rfl : level = 0 := by omega
          rw [node_succ, entry_of_none (by simpa using hbelow), target_zero]
      · next halloc =>
        have halloc : alloc = true := by simpa using halloc
        have hneg : alloc = false → False := fun he => by rw [halloc] at he; cases he
        simp only [wp_bind]
        refine h.wp_kalloc (hE halloc s) (fun s' hs' hsame => ?_) fun c s' hs' hsame hc => ?_
        · exact hnone s' (fun he => (hneg he).elim) hs' hsame.alike
        · -- a new page-table page, zeroed and linked
          simp only [if_neg hc.sound.ne_zero, wp_bind, wp_memset, wp_store]
          obtain ⟨htab2, hsame2, hc2⟩ := hs'.write hc (Bytes.fill 0)
          have hs2 := hsame.trans hsame2
          obtain ⟨htab3, halike3, hnode3⟩ := htab2.link (d := d) (k := k) (q := q) (by omega)
            (by rw [hs2.node (by omega), hq]) (by rw [hs2 d k (by omega), h0]) hc2 (barren_zero s' c)
          have halike := hs2.alike.trans halike3
          refine ih (by omega) htab3 (by rw [← hd', ← hk', hnode3]) (fun s4 q' _ ht ha hn => ?_) fun s4 _ ht ha => ?_
          · exact hfound s4 q' (fun he => (hneg he).elim) ht (halike.trans ha) hn
          · exact hnone s4 (fun he => (hneg he).elim) ht (halike.trans ha)

theorem Table.wp_walk {Q : Nat → Sys → Prop} {E : Stop → Sys → Prop} {alloc : Bool} {va : Nat}
    (hE : alloc = true → ∀ t, E (.call none) t) (h : Table s p) (hva : va < MAXVA)
    (hfound : ∀ s' q', (alloc = false → s' = s) → Table s' p → Alike s s' p →
      node s'.page p 2 (va / PGSIZE / 512) = some q' → Q (q' + 8 * (va / PGSIZE % 512)) s')
    (hnone : ∀ s', (alloc = false → s' = s ∧ node s.page p 2 (va / PGSIZE / 512) = none) → Table s' p → Alike s s' p →
      Q 0 s') : wp (walk p va alloc) Q E s := by
  unfold walk
  simp only [if_neg (Nat.not_le.mpr hva)]
  refine h.wp_walkFrom hE rfl (le_refl 2) ?_ hfound hnone
  have hz : va / PGSIZE / 512 ^ 2 / 512 = 0 := by
    rw [Nat.div_div_eq_div_mul, Nat.div_div_eq_div_mul]
    exact Nat.div_eq_of_lt (Nat.lt_trans hva (by decide))
  rw [hz]
  exact if_pos rfl

theorem Table.word (h : Table s p) {v : Nat} (hq : node s.page p 2 (v / 512) = some q) :
    s.word (q + 8 * (v % 512)) = entry s.page p 2 v ∧ q + 8 * (v % 512) ≠ 0 := by
  have hs := h.sound ⟨2, _, le_refl 2, hq⟩
  have := hs.ne_zero
  exact ⟨by rw [word_entry hs.aligned (Nat.mod_lt _ (by omega)), entry_of_node hq], by omega⟩

def mapping (e : Nat) : Option (Nat × Nat) := if has e PTE_V then some (pte2pa e, pteFlags e) else none

theorem mapping_zero : mapping 0 = none := by simp [mapping]

theorem mapping_pte {pa f : Nat} (hpa : Sound pa) (hf : f < 1024) (hV : has f PTE_V = true) :
    mapping (pa2pte pa ||| f) = some (pa, f) := by
  rw [mapping, has_or hpa.lt (by decide), if_pos hV, pte2pa_or hpa.lt hpa.aligned hf, pteFlags_or hpa.lt hf]

theorem Table.pageMap_eq (h : Table s p) {v : Nat} (hv : v < MAXVA / PGSIZE) :
    pageMap s p v = mapping (entry s.page p 2 v) := by
  have hdiv : v * PGSIZE / PGSIZE = v := Nat.mul_div_cancel v (by decide)
  have hva : v * PGSIZE < MAXVA := by
    simp only [MAXVA, PGSIZE] at hv ⊢
    omega
  have hwalk : wp (walk p (v * PGSIZE) false) (fun pte t => (if pte = 0 then none
      else if has (t.word pte) PTE_V then some (pte2pa (t.word pte), pteFlags (t.word pte)) else none) =
      mapping (entry s.page p 2 v)) (fun _ _ => False) s := by
    refine h.wp_walk (fun he => by cases he) hva (fun s' q hs _ _ hq => ?_) fun s' hs _ _ => ?_
    · obtain rfl := hs rfl
      rw [hdiv] at hq ⊢
      obtain ⟨hword, hne⟩ := h.word hq
      rw [if_neg hne, hword]
      rfl
    · rw [if_pos rfl, ← hdiv, entry_of_none (hs rfl).2, mapping_zero]
  unfold pageMap
  unfold wp at hwalk
  split at hwalk
  · rename_i hw; rw [hw]; exact hwalk
  · exact hwalk.elim

def Halted : Stop → Sys → Prop
  | .panic _, _ | .call _, _ => True
  | _, _ => False

/-- The `n` leaves from page number `v` on map the physical pages from `pa` on. -/
def Mapped (s s' : Sys) (p v n pa perm : Nat) : Prop := ∀ v', entry s'.page p 2 v' =
  if v ≤ v' ∧ v' < v + n then pa2pte (pa + (v' - v) * PGSIZE) ||| (perm ||| PTE_V) else entry s.page p 2 v'

theorem Mapped.cons {v n pa perm : Nat}
    (h1 : ∀ v', entry s'.page p 2 v' = if v' = v then pa2pte pa ||| (perm ||| PTE_V) else entry s.page p 2 v')
    (h2 : Mapped s' s'' p (v + 1) n (pa + PGSIZE) perm) : Mapped s s'' p v (n + 1) pa perm := fun v' => by
  rw [h2 v', h1 v']
  by_cases hv : v' = v
  · subst hv
    rw [if_neg (by omega), if_pos rfl, if_pos (by omega), Nat.sub_self, Nat.zero_mul, Nat.add_zero]
  · rw [if_neg hv]
    by_cases hin : v + 1 ≤ v' ∧ v' < v + 1 + n
    · rw [if_pos hin, if_pos (by omega)]
      congr 2
      simp only [PGSIZE]
      omega
    · rw [if_neg hin, if_neg (by omega)]

theorem Table.wp_mapRound {Q : Int → Sys → Prop} {rest : VmM Int} {perm a pa : Nat} (h : Table s p) (hpa : Sound pa)
    (hperm : perm < 1024) (hfail : ∀ s', Table s' p → Alike s s' p → Q (-1) s')
    (hok : ∀ s', a < MAXVA → Table s' p → (∀ v', entry s'.page p 2 v' =
      if v' = a / PGSIZE then pa2pte pa ||| (perm ||| PTE_V) else entry s.page p 2 v') → wp rest Q Halted s') :
    wp (do
      let pte ← walk p a true
      if pte = 0 then pure (-1)
      else
        let e ← load pte
        if has e PTE_V then halt (.panic "mappages: remap")
        store pte (pa2pte pa ||| perm ||| PTE_V)
        rest) Q Halted s := by
  rw [wp_bind]
  by_cases hva : a < MAXVA
  · refine h.wp_walk (fun _ _ => trivial) hva (fun s' q _ hs' halike hq => ?_) fun s' _ hs' halike => ?_
    · obtain ⟨hword, hne⟩ := hs'.word hq
      simp only [if_neg hne, wp_bind, wp_load, hword]
      split
      · trivial
      · have hx := hs'.setLeaf (x := pa2pte pa ||| perm ||| PTE_V) hq
          (.inr ⟨pa, perm ||| PTE_V, hpa, Nat.or_lt_two_pow (n := 10) hperm (by decide), has_valid perm, Nat.or_assoc ..⟩)
        obtain ⟨htab, hent, -⟩ := hx
        refine hok _ hva htab fun v' => ?_
        rw [hent v', halike v', Nat.or_assoc]
    · rw [if_pos rfl]
      exact hfail s' hs' halike
  · unfold walk
    simp only [if_pos (Nat.le_of_not_lt hva), wp_bind, wp_halt]
    trivial

theorem Mapped.none {v pa perm : Nat} : Mapped s s p v 0 pa perm := fun v' => by rw [if_neg (by omega)]

theorem Table.wp_mapFrom {Q : Int → Sys → Prop} {last perm n a pa : Nat} (h : Table s p)
    (hlast : last = (a + n * PGSIZE) % 2 ^ 64) (ha : a < 2 ^ 64) (hn : n < 2 ^ 52) (hpa : pa ≠ 0)
    (hpal : pa % PGSIZE = 0) (hpalt : pa + (n + 1) * PGSIZE ≤ 2 ^ 56) (hperm : perm < 1024)
    (hfail : ∀ s', Table s' p → (n = 0 → Alike s s' p) → Q (-1) s')
    (hok : ∀ s', Table s' p → Mapped s s' p (a / PGSIZE) (n + 1) pa perm → Q 0 s') :
    wp (mapFrom p last perm (n + 1) a pa) Q Halted s := by
  have hsound : Sound pa := ⟨hpa, hpal, by simp only [PGSIZE] at hpalt; omega⟩
  induction n generalizing s a pa with
  | zero =>
    rw [mapFrom]
    refine h.wp_mapRound hsound hperm (fun s' hs' ha' => hfail s' hs' fun _ => ha') fun s' hva hs' hent => ?_
    rw [if_pos (by rw [hlast, Nat.zero_mul, Nat.add_zero, Nat.mod_eq_of_lt ha]), wp_pure]
    exact hok s' hs' (Mapped.cons hent .none)
  | succ n ih =>
    rw [mapFrom]
    refine h.wp_mapRound hsound hperm (fun s' hs' _ => hfail s' hs' (by rintro ⟨⟩)) fun s' hva hs' hent => ?_
    have hlt : a + PGSIZE < 2 ^ 64 := by
      simp only [MAXVA, PGSIZE] at hva ⊢
      omega
    have hpalt' : pa + PGSIZE + (n + 1) * PGSIZE ≤ 2 ^ 56 := by
      simp only [PGSIZE] at hpalt ⊢
      omega
    have hsound' : Sound (pa + PGSIZE) :=
      ⟨by omega, by rw [Nat.add_mod_right, hpal], by simp only [PGSIZE] at hpalt' ⊢; omega⟩
    have hlast' : last = (a + PGSIZE + n * PGSIZE) % 2 ^ 64 := by
      rw [hlast, Nat.succ_mul, Nat.add_assoc, Nat.add_comm PGSIZE]
    -- `last` is still ahead, for it lies less than 2^64 bytes away
    have hne : a ≠ last := fun he => by
      simp only [PGSIZE] at hlast
      omega
    rw [if_neg hne, Nat.mod_eq_of_lt hlt, Nat.mod_eq_of_lt (Nat.lt_trans hsound'.lt (by decide))]
    have hmore : ∀ s'', Table s'' p → Mapped s' s'' p ((a + PGSIZE) / PGSIZE) (n + 1) (pa + PGSIZE) perm → Q 0 s'' :=
      fun s'' ht hm => by
        rw [Nat.add_div_right a (by decide)] at hm
        exact hok s'' ht (.cons hent hm)
    generalize a + PGSIZE = a' at hlast' hlt hmore
    generalize pa + PGSIZE = pa' at hsound' hpalt' hmore
    exact ih hs' hlast' hlt (by omega) hsound'.ne_zero hsound'.aligned hpalt' (fun s'' ht _ => hfail s'' ht (by rintro ⟨⟩))
      hmore hsound'

theorem Table.wp_mappages {Q : Int → Sys → Prop} {va size perm pa : Nat} (h : Table s p) (hva : va < 2 ^ 64)
    (hsize : size < 2 ^ 64) (hpa : pa ≠ 0) (hpal : pa % PGSIZE = 0) (hpalt : pa + size ≤ 2 ^ 56) (hperm : perm < 1024)
    (hfail : ∀ s', Table s' p → (size = PGSIZE → Alike s s' p) → Q (-1) s')
    (hok : ∀ s', Table s' p → Mapped s s' p (va / PGSIZE) (size / PGSIZE) pa perm → Q 0 s') :
    wp (mappages p va size pa perm) Q Halted s := by
  unfold mappages
  dsimp only
  rw [wp_ite]
  split
  · trivial
  · rw [wp_ite]
    split
    · trivial
    · next hal =>
      rw [wp_ite]
      split
      · trivial
      · next hne =>
        obtain ⟨n, rfl⟩ : ∃ n, size = (n + 1) * PGSIZE := by
          refine ⟨size / PGSIZE - 1, ?_⟩
          simp only [PGSIZE] at hal ⊢
          omega
        have hlast : (va + (n + 1) * PGSIZE - PGSIZE) % 2 ^ 64 = (va + n * PGSIZE) % 2 ^ 64 := by
          rw [Nat.succ_mul, ← Nat.add_assoc, Nat.add_sub_cancel]
        rw [Nat.mul_div_cancel (n + 1) (by decide)] at hok ⊢
        generalize (va + (n + 1) * PGSIZE - PGSIZE) % 2 ^ 64 = last at hlast ⊢
        refine h.wp_mapFrom hlast hva ?_ hpa hpal hpalt hperm (fun s' hs' ha => hfail s' hs' fun he => ha ?_) hok
        · simp only [PGSIZE] at hsize
          omega
        · simp only [PGSIZE] at he
          omega

/-! ### uvmunmap -/

theorem Free.lt (h : Free s l) : s.freelist < 2 ^ 64 := by
  cases l with
  | nil => rw [show s.freelist = 0 from h.chain]; decide
  | cons q l =>
    have := (h.sound q List.mem_cons_self).lt
    rw [h.chain.1]
    omega

theorem Table.freed (h : Table s p) (hq : Loose s p q) :
    Table (s.freed q) p ∧ Same s (s.freed q) p ∧ ∀ c, c ≠ q → Loose s p c → Loose (s.freed q) p c := by
  obtain ⟨l, hl, hout⟩ := h.free
  have hnext : (Bytes.put (Bytes.fill 1) 0 8 s.freelist : Page).le 0 8 = s.freelist := Bytes.le_put (by decide) hl.lt
  rw [freed_eq hq.sound.aligned]
  generalize (Bytes.put (Bytes.fill 1) 0 8 s.freelist : Page) = b at hnext
  obtain ⟨-, hsame, -⟩ := h.write hq b
  have hne : ∀ c ∈ l, c ≠ q := fun c hc he => hq.used l hl (he ▸ hc)
  have hfree : Free ((s.setPage q b).setFree q) (q :: l) := by
    refine ⟨⟨rfl, hq.sound.ne_zero, ?_⟩, List.nodup_cons.mpr ⟨hq.used l hl, hl.nodup⟩, fun c hc => ?_⟩
    · simp only [Sys.setPage, Sys.setFree, Function.update_self]
      rw [hnext]
      exact hl.chain.congr fun c hc => Function.update_of_ne (hne c hc) _ _
    · rcases List.mem_cons.mp hc with rfl | hc
      · exact hq.sound
      · exact hl.sound c hc
  have hsame' : Same s ((s.setPage q b).setFree q) p := hsame
  refine ⟨h.same hsame' ⟨_, hfree, fun c hc => ?_⟩, hsame', fun c hc hloose => ?_⟩
  · rcases List.mem_cons.mp hc with rfl | hc
    · exact hq.within
    · exact hout c hc
  · refine .of_free hfree hloose.sound (fun hw => hloose.within (hsame'.within.mp hw)) fun hmem => ?_
    rcases List.mem_cons.mp hmem with rfl | hmem
    · exact hc rfl
    · exact hloose.used l hl hmem

theorem Table.wp_kfree {L : Layout} {Q : Unit → Sys → Prop} (h : Table s p) (hq : Loose s p q)
    (hQ : ∀ s', Table s' p → Same s s' p → (∀ c, c ≠ q → Loose s p c → Loose s' p c) → Q () s') :
    wp (kfree L q) Q Halted s := by
  by_cases hst : Stock L q
  · obtain ⟨hcalled, hsame⟩ := h.called
    have hloose : ∀ c, Loose s p c → Loose s.called p c := fun c hc =>
      ⟨hc.sound, hc.within, fun l hl => hc.used l ⟨hl.chain, hl.nodup, hl.sound⟩⟩
    obtain ⟨hfreed, hsame', hkeep⟩ := hcalled.freed (hloose q hq)
    exact Vm.wp_kfree trivial hst (hQ _ hfreed (hsame.trans hsame') fun c hc hl => hkeep c hc (hloose c hl))
  · unfold kfree
    rw [wp_bind]
    refine wp_look trivial ?_
    dsimp only
    rw [wp_ite, if_pos]
    · trivial
    · by_contra hn
      simp only [not_or, not_not, Nat.not_lt, Nat.not_le] at hn
      exact hst ⟨hn.1, hn.2.1, hn.2.2⟩

/-- With `do_free`, the pages to be freed are in use, not part of the table, and each is mapped once only. -/
def Freeable (s : Sys) (p v u : Nat) : Prop :=
  ∀ v' pa f, v ≤ v' → v' < u → pageMap s p v' = some (pa, f) →
    Loose s p pa ∧ ∀ v'' f', v ≤ v'' → v'' < u → pageMap s p v'' = some (pa, f') → v'' = v'

def Unmapped (s s' : Sys) (p v u : Nat) : Prop :=
  ∀ v', entry s'.page p 2 v' = if v ≤ v' ∧ v' < u then 0 else entry s.page p 2 v'

theorem Unmapped.next {v u : Nat} (h : Unmapped s s' p v u) (hle : v ≤ u)
    (h' : ∀ v', entry s''.page p 2 v' = if v' = u then 0 else entry s'.page p 2 v') : Unmapped s s'' p v (u + 1) := fun v' => by
  rw [h' v', h v']
  by_cases hv : v' = u
  · rw [if_pos hv, if_pos (by omega)]
  · rw [if_neg hv]
    congr 1
    exact propext (by omega)

theorem Table.wp_unmapRound {L : Layout} {Q : Option Unit → Sys → Prop} {w : Nat} {doFree : Bool} (h : Table s p)
    (hfree : doFree = true → w < MAXVA / PGSIZE → ∀ pa f, mapping (entry s.page p 2 w) = some (pa, f) → Loose s p pa)
    (hQ : ∀ s' pa f, w < MAXVA / PGSIZE → mapping (entry s.page p 2 w) = some (pa, f) → Table s' p →
      (∀ v', entry s'.page p 2 v' = if v' = w then 0 else entry s.page p 2 v') →
      (∀ c, c ≠ pa → Loose s p c → Loose s' p c) → Q none s') :
    wp (do
      let pte ← walk p (w * PGSIZE) false
      if pte = 0 then halt (.panic "uvmunmap: walk")
      let e ← load pte
      if !has e PTE_V then halt (.panic "uvmunmap: not mapped")
      if pteFlags e = PTE_V then halt (.panic "uvmunmap: not a leaf")
      if doFree then kfree L (pte2pa e)
      store pte 0
      pure (none : Option Unit)) Q Halted s := by
  have hdiv : w * PGSIZE / PGSIZE = w := Nat.mul_div_cancel w (by decide)
  rw [wp_bind]
  by_cases hva : w * PGSIZE < MAXVA
  · have hw : w < MAXVA / PGSIZE := by
      simp only [MAXVA, PGSIZE] at hva ⊢
      omega
    refine h.wp_walk (fun he => by cases he) hva (fun s' q hs _ _ hq => ?_) fun s' _ _ _ => ?_
    · obtain rfl := hs rfl
      rw [hdiv] at hq ⊢
      obtain ⟨hword, hne⟩ := h.word hq
      rw [if_neg hne]
      simp only [wp_bind, wp_load, hword]
      split
      · trivial
      · next hV =>
        have hmap : mapping (entry s'.page p 2 w) =
            some (pte2pa (entry s'.page p 2 w), pteFlags (entry s'.page p 2 w)) := by
          rw [mapping, if_pos (by simpa using hV)]
        split
        · trivial
        · cases doFree with
          | false =>
            simp only [Bool.false_eq_true, if_false]
            obtain ⟨htab, hent, hkeep⟩ := h.setLeaf (x := 0) hq (.inl rfl)
            exact hQ _ _ _ hw hmap htab hent fun c _ hc => hkeep c hc
          | true =>
            simp only [if_true, wp_bind]
            refine h.wp_kfree (hfree rfl hw _ _ hmap) fun s1 htab1 hsame hkeep1 => ?_
            simp only [wp_store, wp_pure]
            obtain ⟨htab, hent, hkeep⟩ := htab1.setLeaf (x := 0) ((hsame.node (le_refl 2)).trans hq) (.inl rfl)
            refine hQ _ _ _ hw hmap htab (fun v' => ?_) fun c hc hloose => hkeep c (hkeep1 c hc hloose)
            rw [hent v', hsame 2 v' (le_refl 2)]
    · rw [if_pos rfl]
      trivial
  · unfold walk
    simp only [if_pos (Nat.le_of_not_lt hva), wp_bind, wp_halt]
    trivial

theorem Table.wp_uvmunmap {L : Layout} {Q : Unit → Sys → Prop} {va n : Nat} {doFree : Bool} (h : Table s p)
    (hfree : doFree = true → Freeable s p (va / PGSIZE) ((va / PGSIZE + n) % 2 ^ 52))
    (hQ : ∀ s', Table s' p → Unmapped s s' p (va / PGSIZE) ((va / PGSIZE + n) % 2 ^ 52) → Q () s') :
    wp (uvmunmap L p va n doFree) Q Halted s := by
  unfold uvmunmap
  dsimp only
  rw [wp_ite]
  split
  · trivial
  · next hal =>
    obtain ⟨v, rfl⟩ : ∃ v, va = v * PGSIZE := ⟨va / PGSIZE, (Nat.div_mul_cancel (Nat.dvd_of_mod_eq_zero (by simpa using hal))).symm⟩
    rw [Nat.mul_div_cancel v (by decide)] at hfree hQ
    obtain ⟨u, hu⟩ : ∃ u, u = (v + n) % 2 ^ 52 := ⟨_, rfl⟩
    have hhi : (v * PGSIZE + n * PGSIZE) % 2 ^ 64 = u * PGSIZE := by
      rw [hu, ← Nat.add_mul, ← Nat.mul_mod_mul_right, show (2 : Nat) ^ 64 = 2 ^ 52 * PGSIZE from rfl]
    rw [← hu] at hfree hQ
    rw [hhi, wp_bind]
    refine wp_forUp (I := fun a t => ∃ w, a = w * PGSIZE ∧ v ≤ w ∧ (w ≤ u ∨ w = v) ∧ Table t p ∧ Unmapped s t p v w ∧
      (doFree = true → ∀ v' pa f, w ≤ v' → v' < u → v' < MAXVA / PGSIZE → mapping (entry s.page p 2 v') = some (pa, f) →
        Loose t p pa)) (by decide) ⟨v, rfl, le_refl v, .inr rfl, h, fun v' => by rw [if_neg (by omega)], ?_⟩ ?_ ?_
    · intro hdo v' pa f h1 h2 h3 hm
      exact (hfree hdo v' pa f h1 h2 ((h.pageMap_eq h3).trans hm)).1
    · rintro _ t ha ⟨w, rfl, hvw, -, htab, hemp, hloose⟩
      have hwu : w < u := Nat.lt_of_mul_lt_mul_right ha
      have hew : entry t.page p 2 w = entry s.page p 2 w := by rw [hemp w, if_neg (by omega)]
      refine htab.wp_unmapRound (fun hdo hw pa f hm => hloose hdo w pa f (le_refl w) hwu hw (by rw [← hew]; exact hm))
        fun t' pa f hw hpa htab' hent hkeep => ⟨?_, w + 1, by simp only [Nat.succ_mul], by omega, .inl hwu, htab',
          hemp.next hvw hent, fun hdo v' pa' f' h1 h2 h3 hm => hkeep pa' ?_ (hloose hdo v' pa' f' (by omega) h2 h3 hm)⟩
      · simp only [MAXVA, PGSIZE] at hw ⊢
        omega
      · -- the page freed in this round is another one
        rintro rfl
        rw [hew, ← h.pageMap_eq hw] at hpa
        have := (hfree hdo w pa' f hvw hwu hpa).2 v' f' (by omega) h2 ((h.pageMap_eq h3).trans hm)
        omega
    · rintro _ t ha ⟨w, rfl, hvw, hle, htab, hemp, -⟩
      have huw : u ≤ w := Nat.le_of_mul_le_mul_right ha (by decide)
      rw [wp_pure]
      refine hQ t htab fun v' => ?_
      rw [hemp v']
      congr 1
      exact propext (by omega)

theorem eq_ok_of_wp {α : Type} {m : VmM α} {a : α} (h : wp m (fun b t => t = s ∧ b = a) (fun _ _ => False) s) :
    m s = .ok a s := by
  unfold wp at h
  split at h
  · rename_i hm
    obtain ⟨rfl, rfl⟩ := h
    exact hm
  · exact h.elim

theorem mapping_flags (h : Table s p) {v f : Nat} (hf : f < 1024) :
    has (pteFlags (entry s.page p 2 v)) f = has (entry s.page p 2 v) f := by
  rcases h.leaf v with h0 | ⟨pa, g, hpa, hg, -, he⟩
  · rw [h0]; rfl
  · rw [he, pteFlags_or hpa.lt hg, has_or hpa.lt hf]

theorem Table.walkaddr_eq (h : Table s p) (va : Nat) :
    walkaddr p va s = .ok (if va < MAXVA then
      (match pageMap s p (va / PGSIZE) with
        | some (pa, f) => if has f PTE_U then pa else 0
        | none => 0) else 0) s := by
  refine eq_ok_of_wp ?_
  unfold walkaddr
  rw [wp_ite]
  by_cases hva : va < MAXVA
  · have hv : va / PGSIZE < MAXVA / PGSIZE := by
      simp only [MAXVA, PGSIZE] at hva ⊢
      omega
    rw [if_neg (Nat.not_le.mpr hva), if_pos hva, h.pageMap_eq hv, wp_bind]
    refine h.wp_walk (fun he => by cases he) hva (fun s' q hs _ _ hq => ?_) fun s' hs _ _ => ?_
    · obtain rfl := hs rfl
      obtain ⟨hword, hne⟩ := h.word hq
      rw [if_neg hne]
      simp only [wp_bind, wp_load, hword, wp_ite, wp_pure, true_and]
      by_cases hV : has (entry s'.page p 2 (va / PGSIZE)) PTE_V = true
      · simp only [hV, Bool.not_true, Bool.false_eq_true, if_false, mapping, if_true, mapping_flags h (show PTE_U < 1024 by decide)]
        cases has (entry s'.page p 2 (va / PGSIZE)) PTE_U <;> simp
      · simp [mapping, hV]
    · obtain ⟨rfl, hnone⟩ := hs rfl
      rw [if_pos rfl, entry_of_none hnone, mapping_zero]
      exact ⟨rfl, rfl⟩
  · rw [if_pos (Nat.le_of_not_lt hva), if_neg hva]
    exact ⟨rfl, rfl⟩

end

/-! ### Whole runs -/

/-- Other code has run: the table's pages are as they were, and none of them is free. -/
structure Elsewhere (s t : Sys) (p : Nat) : Prop where
  page : ∀ q, Within s p q → t.page q = s.page q
  free : ∃ l, Free t l ∧ ∀ q ∈ l, ¬ Within s p q

/-- A page table that `uvmcreate` has made, after any calls that returned. -/
inductive Built (L : Layout) (p : Nat) : Sys → Prop where
  | create {s t : Sys} {l : List Nat} : Free s l → uvmcreate s = .ok p t → p ≠ 0 → Built L p t
  | map {s t : Sys} {va size pa perm : Nat} {r : Int} : Built L p s → va < 2 ^ 64 → size < 2 ^ 64 → pa ≠ 0 →
      pa % PGSIZE = 0 → pa + size ≤ 2 ^ 56 → perm < 1024 → mappages p va size pa perm s = .ok r t → Built L p t
  | unmap {s t : Sys} {va n : Nat} {doFree : Bool} : Built L p s →
      (doFree = true → Freeable s p (va / PGSIZE) ((va / PGSIZE + n) % 2 ^ 52)) →
      uvmunmap L p va n doFree s = .ok () t → Built L p t
  | walk {s t : Sys} {va pte : Nat} : Built L p s → walk p va true s = .ok pte t → Built L p t
  | other {s t : Sys} : Built L p s → Elsewhere s t p → Built L p t

section
variable {L : Layout} {s t : Sys} {p : Nat}

theorem post_of_wp {α : Type} {m : VmM α} {a : α} {Q : α → Sys → Prop} {E : Stop → Sys → Prop} (h : wp m Q E s)
    (hm : m s = .ok a t) : Q a t := by
  unfold wp at h
  rw [hm] at h
  exact h

theorem Table.walk_post (h : Table s p) {va pte : Nat} (hw : walk p va true s = .ok pte t) :
    Table t p ∧ Alike s t p := by
  have hwp : wp (walk p va true) (fun _ t => Table t p ∧ Alike s t p) Halted s := by
    by_cases hva : va < MAXVA
    · exact h.wp_walk (fun _ _ => trivial) hva (fun s' q _ hs ha _ => ⟨hs, ha⟩) fun s' _ hs ha => ⟨hs, ha⟩
    · unfold walk
      simp only [if_pos (Nat.le_of_not_lt hva), wp_bind, wp_halt]
      trivial
  exact post_of_wp hwp hw

theorem Free.uvmcreate {l : List Nat} (h : Free s l) (hc : uvmcreate s = .ok p t) (hp : p ≠ 0) : Table t p := by
  have hwp : wp Vm.uvmcreate (fun q t => q ≠ 0 → Table t q) Halted s := by
    unfold Vm.uvmcreate
    rw [wp_bind]
    refine h.wp_kalloc trivial (fun s' _ _ => ?_) fun q s' l' he hl' _ => ?_
    · rw [if_pos rfl]
      exact fun hne => absurd rfl hne
    · subst he
      have hq := h.sound q List.mem_cons_self
      have hnot := (List.nodup_cons.mp h.nodup).1
      rw [if_neg hq.ne_zero, wp_bind, wp_memset, wp_pure]
      refine fun _ => .of_barren (l := l') ⟨hl'.chain.congr fun c hc => ?_, hl'.nodup, hl'.sound⟩ hq hnot (barren_zero s' q)
      exact Function.update_of_ne (by rintro rfl; exact hnot hc) _ _
  exact post_of_wp hwp hc hp

theorem Built.table (h : Built L p s) : Table s p := by
  induction h with
  | create hl hc hp => exact hl.uvmcreate hc hp
  | map _ hva hsize hpa hpal hlt hperm hm ih =>
    exact post_of_wp (ih.wp_mappages (Q := fun _ t => Table t p) hva hsize hpa hpal hlt hperm (fun _ ht _ => ht)
      fun _ ht _ => ht) hm
  | unmap _ hfree hm ih => exact post_of_wp (ih.wp_uvmunmap (Q := fun _ t => Table t p) hfree fun _ ht _ => ht) hm
  | walk _ hw ih => exact (ih.walk_post hw).1
  | other _ he ih => exact ih.same (same_of_pages he.page) he.free

theorem Rep.freeList {X : Pins} {T : Temps} (h : Rep L X s T) : ∃ l, Free s l := by
  obtain ⟨l, hc, hex⟩ := h.exact
  refine ⟨l, hc, hex.nodup, fun q hq => ?_⟩
  have hst := hex.free_mem q hq
  exact ⟨hst.ne_zero, hst.1, Nat.lt_trans hst.lt (by decide)⟩

end

def result {α : Type} (m : VmM α) (s : Sys) : Option (α × Sys) :=
  match m s with
  | .ok a t => some (a, t)
  | .error _ _ => none

theorem result_eq {α : Type} {m : VmM α} {s t : Sys} {a : α} (h : result m s = some (a, t)) : m s = .ok a t := by
  unfold result at h
  split at h
  · cases h; assumption
  · cases h

theorem free_of_kinit {L : Layout} {s t : Sys} {u : Unit} (hcold : Cold s) (h : result (kinit L) s = some (u, t)) :
    ∃ l, Free t l := by
  have hwp : wp (kinit L) (fun _ t => Inv L t Temps.empty) (Looked L) s := wp_kinit ⟨hcold.rep, hcold.slots⟩ fun _ h => h
  exact (post_of_wp hwp (result_eq h)).rep.freeList

def oneMapped : Option (Nat × Sys) :=
  (result (kinit smallLayout) coldSys).bind fun a => (result uvmcreate a.2).bind fun b =>
    (result (mappages b.1 PGSIZE PGSIZE KERNBASE (PTE_R ||| PTE_U)) b.2).map fun c => (b.1, c.2)

theorem oneMapped_built {p : Nat} {s : Sys} (hp : p ≠ 0) (h : oneMapped = some (p, s)) : Built smallLayout p s := by
  obtain ⟨⟨u, s1⟩, h1, hc⟩ := Option.bind_eq_some_iff.mp h
  obtain ⟨⟨p', s2⟩, h2, hm⟩ := Option.bind_eq_some_iff.mp hc
  obtain ⟨⟨r, s3⟩, h3, he⟩ := Option.map_eq_some_iff.mp hm
  cases he
  obtain ⟨l, hl⟩ := free_of_kinit ⟨rfl, fun _ => rfl, rfl, rfl⟩ h1
  have hmap : mappages p' PGSIZE PGSIZE KERNBASE (PTE_R ||| PTE_U) s2 = .ok r s3 := result_eq h3
  exact .map (.create hl (result_eq h2) hp) (by decide) (by decide) (by decide) (by decide) (by decide) (by decide) hmap

end Xv6.Vm
