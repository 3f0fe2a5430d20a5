import Xv6.Fs.Itable

/-! What holds of the inode table in every interleaving: a reference that is not on its way out keeps its inode
    allocated, and a valid entry shows what is on disk. -/

namespace Xv6.Itable
open Lib Fs

structure Pc.Off (e : Fin NINODE) (c : Pc) : Prop where
  reading : c ≠ .reading e
  trunc : c ≠ .trunc e
  untype : c ≠ .untype e
  clear : c ≠ .clear e
  drop : c ≠ .drop e

section Entry
variable {P : Type}

structure Entry [Fintype P] (e : Fin NINODE) (pc : P → Pc) (d : Dinode) (b : Nat) (x : Inode P) : Prop where
  refs : x.ref = ∑ p, (x.held p : Int)
  lock : ∀ p, x.lock = some p → 0 < x.held p ∧ pc p ≠ .drop e ∧ (x.valid ∨ pc p = .reading e)
  reading : ∀ p, pc p = .reading e → x.lock = some p
  freeing : ∀ p, pc p = .trunc e ∨ pc p = .untype e → x.lock = some p ∧ x.ref = 1 ∧ x.valid ∧ x.fields.nlink = 0
  clearing : ∀ p, pc p = .clear e → x.lock = some p ∧ x.held p = 1
  dropping : ∀ p, pc p = .drop e → x.held p = 1
  shown : x.valid → 0 < x.ref → (∃ p, pc p = .clear e) ∨ x.fields = d ∧ d.type ≠ 0
  alive : ∀ p, 0 < x.held p → pc p ≠ .clear e → pc p ≠ .drop e → d.type ≠ 0 ∧ x.since p = b

namespace Entry
variable [Fintype P] {e : Fin NINODE} {pc : P → Pc} {d : Dinode} {b : Nat} {x : Inode P} {p q : P}

theorem held_le (h : Entry e pc d b x) (p : P) : (x.held p : Int) ≤ x.ref := by
  rw [h.refs]
  exact le_sum_of_nonneg (g := fun q => (x.held q : Int)) (fun q => by omega) p

theorem pos (h : Entry e pc d b x) (hp : 0 < x.held p) : 0 < x.ref := by
  have := h.held_le p
  omega

theorem nonneg (h : Entry e pc d b x) : 0 ≤ x.ref := by
  rw [h.refs]
  exact Finset.sum_nonneg fun q _ => by omega

theorem sole (h : Entry e pc d b x) (h1 : x.ref = 1) (hp : 0 < x.held p) (hq : 0 < x.held q) : q = p := by
  by_contra hne
  have hle : (x.held p + x.held q : Int) ≤ ∑ q, (x.held q : Int) :=
    Finset.add_le_sum (f := fun q => (x.held q : Int)) (fun q _ => by omega) (Finset.mem_univ p)
      (Finset.mem_univ q) (Ne.symm hne)
  rw [← h.refs] at hle
  omega

theorem freeing_held (h : Entry e pc d b x) (hp : pc p = .trunc e ∨ pc p = .untype e) : 0 < x.held p :=
  (h.lock p (h.freeing p hp).1).1

theorem fields_eq (h : Entry e pc d b x) (hl : x.lock = some p) (hr : pc p ≠ .reading e) (hc : pc p ≠ .clear e) :
    x.valid ∧ x.fields = d ∧ d.type ≠ 0 := by
  obtain ⟨hheld, -, hv⟩ := h.lock p hl
  have hvalid := hv.resolve_right hr
  refine ⟨hvalid, (h.shown hvalid (h.pos hheld)).resolve_left ?_⟩
  rintro ⟨q, hq⟩
  have := (h.clearing q hq).1
  grind

theorem renew {d' : Dinode} {b' : Nat} (h : Entry e pc d b x) (hd : d.type = 0) : Entry e pc d' b' x :=
  { h with
    shown := fun hv hr => .inl ((h.shown hv hr).resolve_right fun hs => hs.2 hd)
    alive := fun p hp h1 h2 => absurd hd (h.alive p hp h1 h2).1 }

theorem stale {d' : Dinode} {b' : Nat} (h : Entry e pc d b x) (hr : x.ref = 0) : Entry e pc d' b' x :=
  { h with
    shown := fun _ hpos => by omega
    alive := fun p hp _ _ => by have := h.pos hp; omega }

theorem recycle {d' : Dinode} {b' : Nat} {k : Key} (h : Entry e pc d b x) (hr : x.ref = 0) :
    Entry e pc d' b' { x with key := k, ref := 0, valid := false } := by
  have hzero : ∀ p, ¬0 < x.held p := fun p hp => by have := h.pos hp; omega
  have hlock : ∀ p, x.lock ≠ some p := fun p hp => hzero p (h.lock p hp).1
  obtain ⟨refs, lock, reading, freeing, clearing, dropping, shown, alive⟩ := h
  refine ⟨hr.symm.trans refs, ?_, reading, ?_, clearing, dropping, ?_, ?_⟩ <;> grind

theorem edit {d' : Dinode} (h : Entry e pc d b x) (hp : pc p = .idle) (hl : x.lock = some p)
    (hd : d'.type = x.fields.type) : Entry e pc d' b { x with fields := d' } := by
  obtain ⟨-, hf, ht⟩ := h.fields_eq hl (by grind) (by grind)
  obtain ⟨refs, lock, reading, freeing, clearing, dropping, shown, alive⟩ := h
  exact ⟨refs, lock, reading, by grind, clearing, dropping, fun _ _ => .inr ⟨rfl, by grind⟩, by grind⟩

theorem release (h : Entry e pc d b x) (hp : pc p = .idle) (hl : x.lock = some p) :
    Entry e pc d b { x with lock := none } := by
  obtain ⟨refs, lock, reading, freeing, clearing, dropping, shown, alive⟩ := h
  exact ⟨refs, by grind, by grind, by grind, by grind, dropping, shown, alive⟩

variable [DecidableEq P]

omit [Fintype P] in
theorem still {c c' : Pc} (hp : pc p ≠ c) : (∃ q, pc q = c) → ∃ q, Function.update pc p c' q = c := by
  rintro ⟨q, hq⟩
  refine ⟨q, ?_⟩
  rw [Function.update_of_ne (by rintro rfl; exact hp hq), hq]

theorem goto {c : Pc} (h : Entry e pc d b x) (hfrom : (pc p).Off e ∨ pc p = .reading e ∧ x.valid)
    (hto : c.Off e) : Entry e (Function.update pc p c) d b x := by
  have hne : pc p ≠ .clear e := by grind [Pc.Off]
  have hne' : pc p ≠ .drop e := by grind [Pc.Off]
  obtain ⟨refs, lock, reading, freeing, clearing, dropping, shown, alive⟩ := h
  obtain ⟨h1, h2, h3, h4, h5⟩ := hto
  refine ⟨refs, ?_, by grind, by grind, by grind, by grind, fun hv hr => (shown hv hr).imp_left (still hne), by grind⟩
  grind [Pc.Off]

theorem refs_take (h : x.ref = ∑ q, (x.held q : Int)) : (x.take p b).ref = ∑ q, ((x.take p b).held q : Int) := by
  have hsum : ∑ q, ((x.take p b).held q : Int) = _ := sum_update (fun n : Nat => (n : Int)) x.held p (x.held p + 1)
  rw [take_ref, hsum, h]
  push_cast
  omega

theorem refs_drop (h : x.ref = ∑ q, (x.held q : Int)) (hp : 0 < x.held p) :
    (x.drop p).ref = ∑ q, ((x.drop p).held q : Int) := by
  have hsum : ∑ q, ((x.drop p).held q : Int) = _ := sum_update (fun n : Nat => (n : Int)) x.held p (x.held p - 1)
  rw [drop_ref, hsum, h]
  omega

theorem take (h : Entry e pc d b x) (hp : pc p = .idle ∨ ∃ k, pc p = .got k) (hd : d.type ≠ 0)
    (hx : 0 < x.ref ∨ x.valid = false) (hq : ∀ q, pc q ≠ .trunc e ∧ pc q ≠ .untype e) :
    Entry e (Function.update pc p .idle) d b (x.take p b) := by
  have hne : pc p ≠ .clear e := by grind
  obtain ⟨refs, lock, reading, freeing, clearing, dropping, shown, alive⟩ := h
  exact ⟨refs_take refs, by grind, by grind, by grind, by grind, by grind,
    fun hv hr => (shown hv (by grind)).imp_left (still hne), by grind⟩

theorem pass (h : Entry e pc d b x) (hp : pc p = .idle) (hq : pc q = .idle) (hheld : 0 < x.held p)
    (hlock : x.lock = some p → 1 < x.held p) : Entry e pc d b ((x.drop p).take q b) := by
  have hd := h.alive p hheld (by grind) (by grind)
  obtain ⟨refs, lock, reading, freeing, clearing, dropping, shown, alive⟩ := h
  exact ⟨refs_take (refs_drop refs hheld), by grind, reading, by grind, by grind, by grind,
    fun hv hr => shown hv (by grind), by grind⟩

theorem acquire (h : Entry e pc d b x) (hp : pc p = .idle) (hheld : 0 < x.held p) (hlock : x.lock = none) :
    Entry e (Function.update pc p (.reading e)) d b { x with lock := some p } := by
  have hne : pc p ≠ .clear e := by grind
  obtain ⟨refs, lock, reading, freeing, clearing, dropping, shown, alive⟩ := h
  exact ⟨refs, by grind, by grind, by grind, by grind, by grind, fun hv hr => (shown hv hr).imp_left (still hne),
    by grind⟩

theorem fill (h : Entry e pc d b x) (hp : pc p = .reading e) (hd : d.type ≠ 0) :
    Entry e (Function.update pc p .idle) d b { x with fields := d, valid := true } := by
  obtain ⟨refs, lock, reading, freeing, clearing, dropping, shown, alive⟩ := h
  exact ⟨refs, by grind, by grind, by grind, by grind, by grind, fun _ _ => .inr ⟨rfl, hd⟩, by grind⟩

theorem free (h : Entry e pc d b x) (hp : pc p = .idle) (hheld : 0 < x.held p) (hr : x.ref = 1) (hv : x.valid)
    (hn : x.fields.nlink = 0) (hlock : x.lock = none) :
    Entry e (Function.update pc p (.trunc e)) d b { x with lock := some p } := by
  have hne : pc p ≠ .clear e := by grind
  obtain ⟨refs, lock, reading, freeing, clearing, dropping, shown, alive⟩ := h
  exact ⟨refs, by grind, by grind, by grind, by grind, by grind, fun hv hr => (shown hv hr).imp_left (still hne),
    by grind⟩

theorem put (h : Entry e pc d b x) (hp : pc p = .idle ∨ pc p = .drop e) (hheld : 0 < x.held p)
    (hlock : x.lock = some p → 1 < x.held p) : Entry e (Function.update pc p .idle) d b (x.drop p) := by
  have hne : pc p ≠ .clear e := by grind
  have hsole : ∀ q, x.ref = 1 → 0 < x.held q → q = p := fun q h1 hq => h.sole h1 hheld hq
  have hfree : ∀ q, pc q = .trunc e ∨ pc q = .untype e → 0 < x.held q := fun q => h.freeing_held
  obtain ⟨refs, lock, reading, freeing, clearing, dropping, shown, alive⟩ := h
  exact ⟨refs_drop refs hheld, by grind, by grind, by grind, by grind, by grind,
    fun hv hr => (shown hv (by grind)).imp_left (still hne), by grind⟩

theorem trunc {d' : Dinode} (h : Entry e pc d b x) (hp : pc p = .trunc e) (ht : d'.type = x.fields.type)
    (hn : d'.nlink = x.fields.nlink) : Entry e (Function.update pc p (.untype e)) d' b { x with fields := d' } := by
  have hl := (h.freeing p (.inl hp)).1
  obtain ⟨-, hf, ht'⟩ := h.fields_eq hl (by grind) (by grind)
  obtain ⟨refs, lock, reading, freeing, clearing, dropping, shown, alive⟩ := h
  exact ⟨refs, by grind, by grind, by grind, by grind, by grind, fun _ _ => .inr ⟨rfl, by grind⟩, by grind⟩

theorem untype {d' : Dinode} (h : Entry e pc d b x) (hp : pc p = .untype e) :
    Entry e (Function.update pc p (.clear e)) d' b { x with fields := d' } := by
  have hheld := h.freeing_held (.inr hp)
  have hle := h.held_le p
  have hsole : ∀ q, x.ref = 1 → 0 < x.held q → q = p := fun q h1 hq => h.sole h1 hheld hq
  obtain ⟨refs, lock, reading, freeing, clearing, dropping, shown, alive⟩ := h
  exact ⟨refs, by grind, by grind, by grind, by grind, by grind, fun _ _ => .inl ⟨p, Function.update_self ..⟩,
    by grind⟩

theorem clear (h : Entry e pc d b x) (hp : pc p = .clear e) :
    Entry e (Function.update pc p (.drop e)) d b { x with valid := false, lock := none } := by
  obtain ⟨refs, lock, reading, freeing, clearing, dropping, shown, alive⟩ := h
  exact ⟨refs, by grind, by grind, by grind, by grind, by grind, by grind, by grind⟩

end Entry

end Entry

/-! ### The table -/

def Pc.About (e : Fin NINODE) (c : Pc) : Prop := ∀ f, f ≠ e → c.Off f

theorem Pc.About.idle {e : Fin NINODE} : Pc.About e .idle := fun f _ => by constructor <;> simp

theorem Pc.About.got {e : Fin NINODE} {k : Key} : Pc.About e (.got k) := fun f _ => by constructor <;> simp

theorem Pc.About.scan {e : Fin NINODE} {dev i : Nat} {type : Int16} : Pc.About e (.scan dev type i) :=
  fun f _ => by constructor <;> simp

theorem Pc.About.own {e : Fin NINODE} {c : Pc}
    (h : c = .reading e ∨ c = .trunc e ∨ c = .untype e ∨ c = .clear e ∨ c = .drop e) : c.About e := by
  rintro f hf
  rcases h with rfl | rfl | rfl | rfl | rfl <;> constructor <;> simp [Ne.symm hf]

section
variable {P : Type}

def Freeing (s : Sys P) (k : Key) : Prop :=
  ∃ p e, (s.pc p = .trunc e ∨ s.pc p = .untype e) ∧ (s.itable e).key = k

theorem Freeing.mono {s t : Sys P} {k : Key} (h : Freeing s k)
    (hst : ∀ p e, s.pc p = .trunc e ∨ s.pc p = .untype e → (s.itable e).key = k →
      (t.pc p = .trunc e ∨ t.pc p = .untype e) ∧ (t.itable e).key = k) : Freeing t k := by
  obtain ⟨p, e, hp, hk⟩ := h
  exact ⟨p, e, hst p e hp hk⟩

variable [Fintype P]

structure Inv (s : Sys P) : Prop where
  entry : ∀ e, Entry e s.pc (s.dinode (s.itable e).key) (s.born (s.itable e).key) (s.itable e)
  uniq : ∀ e f, 0 < (s.itable e).ref → 0 < (s.itable f).ref → (s.itable e).key = (s.itable f).key → e = f
  scan : ∀ p dev type i, s.pc p = .scan dev type i → type ≠ 0
  -- an inode between `ialloc` and `iget`
  fresh : ∀ p k, s.pc p = .got k → (s.dinode k).type ≠ 0 ∧ (s.dinode k).nlink = 0
  alone : ∀ p q k, s.pc p = .got k → s.pc q = .got k → q = p
  unheld : ∀ p k, s.pc p = .got k → ∀ e q, (s.itable e).key = k → 0 < (s.itable e).held q →
    s.pc q = .clear e ∨ s.pc q = .drop e
  nodup : s.frees.Nodup
  freed : ∀ k b, (k, b) ∈ s.frees → b ≤ s.born k ∧ (b = s.born k → (s.dinode k).type = 0 ∨ Freeing s k)

namespace Inv
variable {s t : Sys P} {p q : P} {e : Fin NINODE} {k : Key}

theorem of_start (h : Start s) : Inv s := by
  obtain ⟨ref, lock, held, pc, frees⟩ := h
  refine ⟨fun e => ⟨?_, ?_, ?_, ?_, ?_, ?_, ?_, ?_⟩, ?_, ?_, ?_, ?_, ?_, ?_, ?_⟩
  · simp [ref, held]
  all_goals grind

theorem not_freeing (h : Inv s) (hn : (s.dinode (s.itable e).key).nlink ≠ 0) (q : P) :
    s.pc q ≠ .trunc e ∧ s.pc q ≠ .untype e := by
  have key : ∀ {c}, s.pc q = c → c = .trunc e ∨ c = .untype e → False := fun hq hc => by
    have hent := h.entry e
    obtain ⟨hl, -, -, hz⟩ := hent.freeing q (hq ▸ hc)
    have hf := (hent.fields_eq hl (by grind) (by grind)).2.1
    rw [hf] at hz
    exact hn hz
  exact ⟨fun hq => key hq (.inl rfl), fun hq => key hq (.inr rfl)⟩

theorem not_freeing_of_held (h : Inv s) (hp : s.pc p = .idle) (hheld : 0 < (s.itable e).held p) (q : P) :
    s.pc q ≠ .trunc e ∧ s.pc q ≠ .untype e := by
  have key : s.pc q = .trunc e ∨ s.pc q = .untype e → False := fun hq => by
    have hent := h.entry e
    have := hent.sole (hent.freeing q hq).2.1 hheld (hent.freeing_held hq)
    grind
  exact ⟨fun hq => key (.inl hq), fun hq => key (.inr hq)⟩

theorem not_freeing_of_got (h : Inv s) (hp : s.pc p = .got (s.itable e).key) (q : P) :
    s.pc q ≠ .trunc e ∧ s.pc q ≠ .untype e := by
  have key : s.pc q = .trunc e ∨ s.pc q = .untype e → False := fun hq => by
    have := h.unheld p _ hp e q rfl ((h.entry e).freeing_held hq)
    grind
  exact ⟨fun hq => key (.inl hq), fun hq => key (.inr hq)⟩

theorem ne_got (h : Inv s) (hheld : 0 < (s.itable e).held p) (hc : s.pc p ≠ .clear e) (hd : s.pc p ≠ .drop e) (q : P) :
    s.pc q ≠ .got (s.itable e).key := fun hq => by
  have := h.unheld q _ hq e p rfl hheld
  grind

variable [DecidableEq P]

theorem entries {c : Pc} {x : Inode P} {d : Dinode} {b : Nat} (h : Inv s)
    (he : Entry e (Function.update s.pc p c) d b x) (hfrom : (s.pc p).About e) (hto : c.About e)
    (hpc : t.pc = Function.update s.pc p c) (hx : t.itable e = x) (hd : t.dinode x.key = d) (hb : t.born x.key = b)
    (hne : ∀ f, f ≠ e → t.itable f = s.itable f ∧ (t.born (s.itable f).key = s.born (s.itable f).key ∧
      t.dinode (s.itable f).key = s.dinode (s.itable f).key ∨ (s.itable f).ref = 0)) (f : Fin NINODE) :
    Entry f t.pc (t.dinode (t.itable f).key) (t.born (t.itable f).key) (t.itable f) := by
  rcases eq_or_ne f e with rfl | hf
  · rw [hx, hd, hb, hpc]
    exact he
  · obtain ⟨hit, hd⟩ := hne f hf
    have hgo := (h.entry f).goto (.inl (hfrom f hf)) (hto f hf)
    rw [hit, hpc]
    rcases hd with ⟨hb, hd⟩ | hr
    · rw [hb, hd]; exact hgo
    · exact hgo.stale hr

theorem quiet {c : Pc} (h : Inv s)
    (entry : ∀ f, Entry f t.pc (t.dinode (t.itable f).key) (t.born (t.itable f).key) (t.itable f))
    (hdisk : t.dinode = s.dinode) (hborn : t.born = s.born) (hfrees : t.frees = s.frees)
    (hpc : t.pc = Function.update s.pc p c) (hkey : ∀ f, (t.itable f).key = (s.itable f).key)
    (href : ∀ f, (t.itable f).ref ≤ (s.itable f).ref)
    (hheld : ∀ f q, 0 < (t.itable f).held q → 0 < (s.itable f).held q)
    (hgot : ∀ k, c ≠ .got k) (hscan : ∀ dev type i, c = .scan dev type i → type ≠ 0)
    (hfree : ∀ f, s.pc p ≠ .trunc f ∧ s.pc p ≠ .untype f)
    (hdie : ∀ f, s.pc p = .clear f ∨ s.pc p = .drop f → c = .drop f ∨ (t.itable f).held p = 0) : Inv t := by
  have hat : ∀ q, t.pc q = if q = p then c else s.pc q := fun q => by rw [hpc, Function.update_apply]
  obtain ⟨-, uniq, scan, fresh, alone, unheld, nodup, freed⟩ := h
  refine ⟨entry, by grind, by grind, ?_, by grind, by grind, hfrees ▸ nodup, ?_⟩
  · rw [hdisk]
    grind
  · intro k b hm
    rw [hfrees] at hm
    rw [hborn, hdisk]
    exact ⟨(freed k b hm).1, fun hb => ((freed k b hm).2 hb).imp_right (·.mono (by grind))⟩

theorem acquire (h : Inv s) (hp : s.pc p = .idle) (hheld : 0 < (s.itable e).held p)
    (hlock : (s.itable e).lock = none) :
    Inv ((s.set e { s.itable e with lock := some p }).goto p (.reading e)) :=
  h.quiet (h.entries ((h.entry e).acquire hp hheld hlock) (hp ▸ .idle) (.own (.inl rfl)) rfl (by grind) rfl rfl (by grind))
    rfl rfl rfl rfl (by grind) (by grind) (by grind) (by simp) (by simp) (by grind) (by grind)

theorem fill (h : Inv s) (hp : s.pc p = .reading e) (hd : (s.dinode (s.itable e).key).type ≠ 0) :
    Inv ((s.set e { s.itable e with fields := s.dinode (s.itable e).key, valid := true }).goto p .idle) :=
  h.quiet (h.entries ((h.entry e).fill hp hd) (.own (.inl hp)) .idle rfl (by grind) rfl rfl (by grind))
    rfl rfl rfl rfl (by grind) (by grind) (by grind) (by simp) (by simp) (by grind) (by grind)

theorem clear (h : Inv s) (hp : s.pc p = .clear e) :
    Inv ((s.set e { s.itable e with valid := false, lock := none }).goto p (.drop e)) :=
  h.quiet (h.entries ((h.entry e).clear hp) (.own (by simp [hp])) (.own (by simp)) rfl (by grind) rfl rfl (by grind))
    rfl rfl rfl rfl (by grind) (by grind) (by grind) (by simp) (by simp) (by grind) (by grind)

theorem put (h : Inv s) (hp : s.pc p = .idle ∨ s.pc p = .drop e) (hheld : 0 < (s.itable e).held p)
    (hlock : (s.itable e).lock = some p → 1 < (s.itable e).held p) :
    Inv ((s.set e ((s.itable e).drop p)).goto p .idle) := by
  have hent := (h.entry e).put hp hheld hlock
  have hdrop := (h.entry e).dropping p
  refine h.quiet (h.entries hent (hp.elim (· ▸ .idle) fun hp => .own (by simp [hp])) .idle rfl (by grind) rfl rfl
    (by grind)) rfl rfl rfl rfl (by grind) (by grind) (by grind) (by simp) (by simp) (by grind) (by grind)

theorem goto {c : Pc} (h : Inv s) (hp : ∀ f, (s.pc p).Off f ∨ s.pc p = .reading f ∧ (s.itable f).valid)
    (hc : ∀ f, c.Off f) (hgot : ∀ k, c ≠ .got k) (hscan : ∀ dev type i, c = .scan dev type i → type ≠ 0) :
    Inv (s.goto p c) := by
  have hfree : ∀ f, s.pc p ≠ .trunc f ∧ s.pc p ≠ .untype f ∧ s.pc p ≠ .clear f ∧ s.pc p ≠ .drop f := fun f => by
    rcases hp f with hoff | ⟨hr, -⟩
    · exact ⟨hoff.trunc, hoff.untype, hoff.clear, hoff.drop⟩
    · simp [hr]
  exact h.quiet (fun f => (h.entry f).goto (hp f) (hc f)) rfl rfl rfl rfl (fun _ => rfl) (fun _ => Int.le_refl _)
    (fun _ _ hq => hq) hgot hscan (by grind) (by grind)

theorem release (h : Inv s) (hp : s.pc p = .idle) (hl : (s.itable e).lock = some p) :
    Inv (s.set e { s.itable e with lock := none }) := by
  have hpc : s.pc = Function.update s.pc p .idle := by rw [← hp, Function.update_eq_self]
  have hent := (h.entry e).release hp hl
  rw [hpc] at hent
  exact h.quiet (h.entries hent (hp ▸ .idle) .idle hpc (by grind) rfl rfl (by grind)) rfl rfl rfl hpc (by grind)
    (by grind) (by grind) (by simp) (by simp) (by grind) (by grind)

theorem take (h : Inv s) (hp : s.pc p = .idle ∨ ∃ k, s.pc p = .got k)
    (hd : (s.dinode (s.itable e).key).type ≠ 0) (hx : 0 < (s.itable e).ref ∨ (s.itable e).valid = false)
    (hq : ∀ q, s.pc q ≠ .trunc e ∧ s.pc q ≠ .untype e)
    (hu : ∀ f, f ≠ e → 0 < (s.itable f).ref → (s.itable f).key ≠ (s.itable e).key)
    (hgot : ∀ q, q ≠ p → s.pc q ≠ .got (s.itable e).key) : Inv ((s.take p e).goto p .idle) := by
  have hent := (h.entry e).take hp hd hx hq
  have hab : (s.pc p).About e := hp.elim (· ▸ .idle) fun ⟨k, hk⟩ => hk ▸ .got
  refine ⟨h.entries hent hab .idle rfl (by grind [Sys.take]) rfl rfl (by grind [Sys.take]), ?_, ?_, ?_, ?_, ?_, h.nodup, ?_⟩
  · have := h.uniq
    grind [Sys.take]
  · have := h.scan
    grind [Sys.take]
  · have := h.fresh
    grind [Sys.take]
  · have := h.alone
    grind [Sys.take]
  · have := h.unheld
    grind [Sys.take]
  · intro k b hm
    exact ⟨(h.freed k b hm).1, fun hb => ((h.freed k b hm).2 hb).imp_right (·.mono (by grind [Sys.take]))⟩

omit [DecidableEq P] in
theorem recycle (h : Inv s) (hr : (s.itable e).ref = 0) :
    Inv (s.set e { s.itable e with key := k, ref := 0, valid := false }) := by
  have hzero : ∀ p, ¬0 < (s.itable e).held p := fun p hp => by have := (h.entry e).pos hp; omega
  have hfree : ∀ p, s.pc p = .trunc e ∨ s.pc p = .untype e → False := fun p hp => hzero p ((h.entry e).freeing_held hp)
  refine ⟨fun f => ?_, ?_, h.scan, h.fresh, h.alone, ?_, h.nodup, ?_⟩
  · rw [set_itable]
    split
    · rename_i hf
      subst hf
      exact (h.entry f).recycle hr
    · exact h.entry f
  · have := h.uniq
    grind
  · intro q l hq f r hk hheld
    rcases eq_or_ne f e with rfl | hf
    · exact absurd (by simpa [set_itable] using hheld) (hzero r)
    · simp only [set_itable, if_neg hf] at hk hheld
      exact h.unheld q l hq f r hk hheld
  · intro l b hm
    exact ⟨(h.freed l b hm).1, fun hb => ((h.freed l b hm).2 hb).imp_right (·.mono (by grind))⟩

theorem pass (h : Inv s) (hp : s.pc p = .idle) (hq : s.pc q = .idle) (hheld : 0 < (s.itable e).held p)
    (hlock : (s.itable e).lock = some p → 1 < (s.itable e).held p) :
    Inv ((s.set e ((s.itable e).drop p)).take q e) := by
  have hgot := h.ne_got hheld (by grind) (by grind)
  have hent := (h.entry e).pass hp hq hheld hlock
  refine ⟨fun f => ?_, ?_, h.scan, h.fresh, h.alone, ?_, h.nodup, ?_⟩
  · have hf : ((s.set e ((s.itable e).drop p)).take q e).itable f =
        if f = e then ((s.itable e).drop p).take q (s.born (s.itable e).key) else s.itable f := by grind [Sys.take]
    rw [hf]
    split
    · rename_i hfe
      subst hfe
      exact hent
    · exact h.entry f
  · have := h.uniq
    grind [Sys.take]
  · have := h.unheld
    grind [Sys.take]
  · intro l b hm
    exact ⟨(h.freed l b hm).1, fun hb => ((h.freed l b hm).2 hb).imp_right (·.mono (by grind [Sys.take]))⟩

theorem store {c : Pc} {d : Dinode} (h : Inv s)
    (he : Entry e (Function.update s.pc p c) d (s.born (s.itable e).key) { s.itable e with fields := d })
    (hfrom : (s.pc p).About e) (hto : c.About e) (hheld : 0 < (s.itable e).held p) (hclear : s.pc p ≠ .clear e)
    (hdrop : s.pc p ≠ .drop e) (hgot : ∀ k, c ≠ .got k) (hscan : ∀ dev type i, c ≠ .scan dev type i)
    (hfree : s.pc p = .trunc e ∨ s.pc p = .untype e → c = .untype e ∨ d.type = 0) :
    Inv (((s.set e { s.itable e with fields := d }).store (s.itable e).key d).goto p c) := by
  have hne := h.ne_got hheld hclear hdrop
  have hpos := (h.entry e).pos hheld
  have halive := (h.entry e).alive p hheld hclear hdrop
  refine ⟨h.entries he hfrom hto rfl (by grind) (by grind) rfl (fun f hf => ⟨by grind, ?_⟩), ?_, ?_, ?_, ?_, ?_,
    h.nodup, ?_⟩
  · have hu := h.uniq f e
    have := (h.entry f).nonneg
    grind
  · have := h.uniq
    grind
  · have := h.scan
    grind
  · have := h.fresh
    grind
  · have := h.alone
    grind
  · intro q k hq f r hk hr
    have := h.unheld q k
    have := hfrom f
    grind [Pc.Off]
  · intro k b hm
    refine ⟨(h.freed k b hm).1, fun hb => ?_⟩
    by_cases hk : k = (s.itable e).key ∧ (s.pc p = .trunc e ∨ s.pc p = .untype e)
    · obtain ⟨rfl, hpc⟩ := hk
      rcases hfree hpc with hc | hd
      · exact .inr ⟨p, e, by grind, by grind⟩
      · exact .inl (by grind)
    · refine ((h.freed k b hm).2 hb).imp (fun h0 => ?_) (·.mono fun q f hqf hkf => ?_)
      · grind
      · have := hfrom f
        grind [Pc.Off]

theorem free (h : Inv s) (hp : s.pc p = .idle) (hheld : 0 < (s.itable e).held p) (hr : (s.itable e).ref = 1)
    (hv : (s.itable e).valid) (hn : (s.itable e).fields.nlink = 0) (hlock : (s.itable e).lock = none) :
    Inv { (s.set e { s.itable e with lock := some p }).goto p (.trunc e) with
      frees := ((s.itable e).key, s.born (s.itable e).key) :: s.frees } := by
  have hne := h.ne_got hheld (by grind) (by grind)
  have hq := h.not_freeing_of_held hp hheld
  have halive := ((h.entry e).alive p hheld (by grind) (by grind)).1
  refine ⟨h.entries ((h.entry e).free hp hheld hr hv hn hlock) (hp ▸ .idle) (.own (by simp)) rfl (by grind) rfl rfl
    (by grind), ?_, ?_, ?_, ?_, ?_, ?_, ?_⟩
  · have := h.uniq
    grind
  · have := h.scan
    grind
  · have := h.fresh
    grind
  · have := h.alone
    grind
  · have := h.unheld
    grind
  · refine List.nodup_cons.mpr ⟨fun hm => ?_, h.nodup⟩
    rcases (h.freed _ _ hm).2 rfl with h0 | ⟨q, f, hqf, hk⟩
    · exact halive h0
    · have hpos := ((h.entry f).freeing q hqf).2.1
      have := h.uniq f e (by omega) (by omega) hk
      grind
  · intro k b hm
    rcases List.mem_cons.mp hm with heq | hm
    · cases heq
      exact ⟨Nat.le_refl _, fun _ => .inr ⟨p, e, by grind, by grind⟩⟩
    · exact ⟨(h.freed k b hm).1, fun hb => ((h.freed k b hm).2 hb).imp_right (·.mono (by grind))⟩

theorem mark {dev i : Nat} {type : Int16} (h : Inv s) (hp : s.pc p = .scan dev type i) (hk : (s.dinode k).type = 0) :
    Inv { (s.store k { Dinode.zero with type := type }).goto p (.got k) with
      born := Function.update s.born k (s.born k + 1) } := by
  have htype := h.scan p dev type i hp
  refine ⟨fun f => ?_, h.uniq, ?_, ?_, ?_, ?_, h.nodup, ?_⟩
  · have hent := (h.entry f).goto (p := p) (c := .got k) (.inl (by rw [hp]; constructor <;> simp)) (by constructor <;> simp)
    by_cases hf : (s.itable f).key = k
    · rw [hf] at hent
      exact hent.renew hk
    · simp only [goto_itable, store_itable, goto_dinode, store_dinode, if_neg hf, Function.update_of_ne hf]
      exact hent
  · have := h.scan
    grind
  · have := h.fresh
    grind [Dinode.zero]
  · have := h.alone
    have := h.fresh
    grind
  · have := h.unheld
    have := fun f q => (h.entry f).alive q
    grind
  · intro l b hm
    have hold := h.freed l b hm
    rcases eq_or_ne l k with rfl | hl
    · simp only [Function.update_self]
      exact ⟨by omega, fun hb => by omega⟩
    · simp only [Function.update_of_ne hl, goto_dinode, store_dinode, if_neg hl]
      exact ⟨hold.1, fun hb => (hold.2 hb).imp_right (·.mono (by grind))⟩

omit [Fintype P] in
theorem goto_idle (hp : s.pc p = .idle) : s.goto p .idle = s := by
  unfold Sys.goto
  rw [← hp, Function.update_eq_self]

omit [Fintype P] [DecidableEq P] in
theorem lookup_some (hl : s.lookup k = some e) : 0 < (s.itable e).ref ∧ (s.itable e).key = k := by
  simpa using List.find?_some hl

omit [Fintype P] [DecidableEq P] in
theorem lookup_none (hl : s.lookup k = none) (f : Fin NINODE) (hf : 0 < (s.itable f).ref) : (s.itable f).key ≠ k := by
  simpa [hf] using List.find?_eq_none.mp hl f (List.mem_finRange f)

theorem iget (h : Inv s) (hp : (s.pc p = .idle ∧ (s.dinode k).type ≠ 0 ∧ (s.dinode k).nlink ≠ 0) ∨ s.pc p = .got k)
    (hs : Itable.iget s p k = .ok t) : Inv (t.goto p .idle) := by
  have hpc : s.pc p = .idle ∨ ∃ k, s.pc p = .got k := hp.imp (·.1) fun hk => ⟨k, hk⟩
  have htype : (s.dinode k).type ≠ 0 := hp.elim (·.2.1) fun hk => (h.fresh p k hk).1
  have hgot : ∀ q, q ≠ p → s.pc q ≠ .got k := fun q hq hqk => by
    rcases hp with ⟨-, -, hn⟩ | hk
    · exact hn (h.fresh q k hqk).2
    · exact hq (h.alone p q k hk hqk)
  unfold Itable.iget at hs
  split at hs
  · rename_i e hl
    cases hs
    obtain ⟨hpos, rfl⟩ := lookup_some hl
    have hq : ∀ q, s.pc q ≠ .trunc e ∧ s.pc q ≠ .untype e := hp.elim (fun hn => h.not_freeing hn.2.2) h.not_freeing_of_got
    exact h.take hpc htype (.inl hpos) hq (fun f hf hr hk => hf (h.uniq f e hr hpos hk)) hgot
  · rename_i hl
    split at hs
    · rename_i e hv
      cases hs
      have hr : (s.itable e).ref = 0 := by simpa using List.find?_some hv
      have h' := h.recycle (k := k) hr
      set s' := s.set e { s.itable e with key := k, ref := 0, valid := false } with hs'
      have he : s'.itable e = { s.itable e with key := k, ref := 0, valid := false } := by grind
      have hkey : (s'.itable e).key = k := by rw [he]
      have hfree : ∀ q, s'.pc q ≠ .trunc e ∧ s'.pc q ≠ .untype e := fun q => by
        have hone := fun hq => ((h'.entry e).freeing q hq).2.1
        rw [he] at hone
        grind
      refine h'.take hpc (by rw [hkey]; exact htype) (.inr (by rw [he])) hfree (fun f hf hpos => ?_) (by rw [hkey]; exact hgot)
      have hf' : s'.itable f = s.itable f := by grind
      rw [hf'] at hpos ⊢
      rw [hkey]
      exact lookup_none hl f hpos
    · cases hs

omit [Fintype P] in
theorem iget_pc (hs : Itable.iget s p k = .ok t) : t.pc = s.pc := by
  unfold Itable.iget at hs
  split at hs
  · cases hs; rfl
  · split at hs <;> cases hs
    rfl

theorem iput (h : Inv s) (hp : s.pc p = .idle) (hheld : 0 < (s.itable e).held p)
    (hlock : (s.itable e).lock = some p → 1 < (s.itable e).held p) (hs : Itable.iput s p e = .ok t) : Inv t := by
  unfold Itable.iput at hs
  dsimp only at hs
  split at hs
  · rename_i hc
    split at hs
    · rename_i hl
      cases hs
      exact h.free hp hheld hc.1 hc.2.1 hc.2.2 hl
    · cases hs
  · cases hs
    have := h.put (.inl hp) hheld hlock
    rwa [goto_idle (by rw [set_pc, hp])] at this

theorem run (h : Inv s) (hs : runPc s p (s.pc p) = .ok t) : Inv t := by
  cases hp : s.pc p with
  | idle => rw [hp] at hs; cases hs
  | scan dev type i =>
    have hoff : ∀ f, (s.pc p).Off f := fun f => by rw [hp]; constructor <;> simp
    simp only [hp, runPc] at hs
    split at hs
    · split at hs
      · rename_i h0
        cases hs
        exact h.mark hp h0
      · cases hs
        refine h.goto (fun f => .inl (hoff f)) (fun f => by constructor <;> simp) (by simp) ?_
        rintro _ _ _ ⟨⟩
        exact h.scan p _ _ _ hp
    · cases hs
      exact h.goto (fun f => .inl (hoff f)) (fun f => by constructor <;> simp) (by simp) (by simp)
  | got k =>
    simp only [hp, runPc] at hs
    cases hi : Itable.iget s p k with
    | error r => rw [hi] at hs; cases hs
    | ok u =>
      rw [hi] at hs
      cases hs
      exact h.iget (.inr hp) hi
  | reading e =>
    simp only [hp, runPc] at hs
    split at hs
    · rename_i hv
      cases hs
      refine h.goto (fun f => ?_) (fun f => by constructor <;> simp) (by simp) (by simp)
      rcases eq_or_ne f e with rfl | hf
      · exact .inr ⟨hp, hv⟩
      · exact .inl ((Pc.About.own (.inl hp)) f hf)
    · split at hs
      · cases hs
      · rename_i h0
        cases hs
        exact h.fill hp h0
  | trunc e =>
    simp only [hp, runPc] at hs
    cases hs
    exact h.store ((h.entry e).trunc hp rfl rfl) (.own (by simp [hp])) (.own (by simp))
      ((h.entry e).freeing_held (.inl hp)) (by simp [hp]) (by simp [hp]) (by simp) (by simp) (by simp)
  | untype e =>
    simp only [hp, runPc] at hs
    cases hs
    exact h.store ((h.entry e).untype hp) (.own (by simp [hp])) (.own (by simp))
      ((h.entry e).freeing_held (.inr hp)) (by simp [hp]) (by simp [hp]) (by simp) (by simp) (by simp)
  | clear e =>
    simp only [hp, runPc] at hs
    cases hs
    exact h.clear hp
  | drop e =>
    simp only [hp, runPc] at hs
    cases hs
    have hone := (h.entry e).dropping p hp
    refine h.put (.inr hp) (by omega) fun hl => ?_
    exact absurd hp ((h.entry e).lock p hl).2.1

theorem step {a : Action P} (h : Inv s) (hs : Itable.step s a = .ok t) : Inv t := by
  unfold Itable.step at hs
  split at hs
  · rename_i hok
    cases a with
    | ialloc p dev type =>
      obtain ⟨hp, ht⟩ := hok
      cases hs
      refine h.goto (fun f => .inl (by rw [hp]; constructor <;> simp)) (fun f => by constructor <;> simp) (by simp) ?_
      rintro _ _ _ ⟨⟩
      exact ht
    | iget p k =>
      have hinv := h.iget (.inl hok) hs
      rwa [goto_idle (by rw [iget_pc hs]; exact hok.1)] at hinv
    | idup p e =>
      obtain ⟨hp, hheld⟩ := hok
      cases hs
      have hpos := (h.entry e).pos hheld
      have := h.take (.inl hp) ((h.entry e).alive p hheld (by simp [hp]) (by simp [hp])).1 (.inl hpos)
        (h.not_freeing_of_held hp hheld) (fun f hf hr hk => hf (h.uniq f e hr hpos hk))
        (fun q _ => h.ne_got hheld (by simp [hp]) (by simp [hp]) q)
      rwa [goto_idle (by exact hp)] at this
    | pass p q e =>
      obtain ⟨hp, hq, hheld, hlock⟩ := hok
      cases hs
      exact h.pass hp hq hheld hlock
    | ilock p e =>
      obtain ⟨hp, hheld⟩ := hok
      dsimp only at hs
      split at hs
      · cases hs
      · split at hs
        · rename_i hl
          cases hs
          exact h.acquire hp hheld hl
        · cases hs
    | edit p e d =>
      obtain ⟨hp, hl, hd⟩ := hok
      cases hs
      have hpc : s.pc = Function.update s.pc p .idle := by rw [← hp, Function.update_eq_self]
      have hent := (h.entry e).edit hp hl hd
      rw [hpc] at hent
      have := h.store hent (hp ▸ .idle) .idle ((h.entry e).lock p hl).1 (by simp [hp]) (by simp [hp]) (by simp)
        (by simp) (by simp [hp])
      rwa [goto_idle (by exact hp)] at this
    | iunlock p e =>
      obtain ⟨hp, hl⟩ := hok
      dsimp only at hs
      split at hs
      · cases hs
      · cases hs
        exact h.release hp hl
    | iput p e => exact h.iput hok.1 hok.2.1 hok.2.2 hs
    | run p => exact h.run hs
  · cases hs

end Inv

variable [DecidableEq P]

theorem inv_reach {s : Sys P} {ok : Sys P → Action P → Prop} (h : Reach Start step ok s) : Inv s :=
  h.invariant (fun _ => .of_start) fun _ _ _ inv _ hs => inv.step hs

theorem refusal {s : Sys P} {a : Action P} {r : Refusal} (h : Inv s) (hs : step s a = .error r) :
    r = .disabled ∨ r = .noInodes := by
  have higet : ∀ {p k}, iget s p k = .error r → r = .noInodes := fun {p k} hi => by
    unfold iget at hi
    split at hi
    · cases hi
    · split at hi <;> cases hi
      rfl
  unfold step at hs
  split at hs
  · rename_i hok
    cases a with
    | ialloc p dev type => cases hs
    | iget p k => exact .inr (higet hs)
    | idup p e => cases hs
    | pass p q e => cases hs
    | ilock p e =>
      have := (h.entry e).pos hok.2
      dsimp only at hs
      rw [if_neg (by omega)] at hs
      split at hs <;> cases hs
      exact .inl rfl
    | edit p e d => cases hs
    | iunlock p e =>
      have := (h.entry e).pos ((h.entry e).lock p hok.2).1
      dsimp only at hs
      rw [if_neg (by rw [hok.2]; simp; omega)] at hs
      cases hs
    | iput p e =>
      obtain ⟨hp, hheld, hlock⟩ := hok
      simp only [iput] at hs
      split at hs
      · rename_i hc
        split at hs
        · cases hs
        · -- the lock would be held by the owner of the only reference, and that is the caller itself
          rename_i hl
          obtain ⟨q, hq⟩ := Option.ne_none_iff_exists'.mp hl
          have hqp := (h.entry e).sole hc.1 hheld ((h.entry e).lock q hq).1
          have hle := (h.entry e).held_le p
          have := hlock (hqp ▸ hq)
          omega
      · cases hs
    | run p =>
      cases hp : s.pc p with
      | idle => simp only [hp, runPc] at hs; cases hs; exact .inl rfl
      | scan dev type i =>
        simp only [hp, runPc] at hs
        split at hs
        · split at hs <;> cases hs
        · cases hs
      | got k =>
        simp only [hp, runPc] at hs
        cases hi : iget s p k with
        | error r' =>
          rw [hi] at hs
          cases hs
          exact .inr (higet hi)
        | ok u => rw [hi] at hs; cases hs
      | reading e =>
        have hl := (h.entry e).reading p hp
        have halive := (h.entry e).alive p ((h.entry e).lock p hl).1 (by simp [hp]) (by simp [hp])
        simp only [hp, runPc] at hs
        split at hs
        · cases hs
        · rw [if_neg halive.1] at hs
          cases hs
      | trunc e => simp only [hp, runPc] at hs; cases hs
      | untype e => simp only [hp, runPc] at hs; cases hs
      | clear e => simp only [hp, runPc] at hs; cases hs
      | drop e => simp only [hp, runPc] at hs; cases hs
  · cases hs
    exact .inl rfl

/-- In every interleaving an inode has at most one entry with references, `iput` frees it at most once in each
    lifetime and does not wait there, no call panics unless the table is full, and the holder of the lock sees the
    inode on disk. -/
theorem inode_table {s : Sys P} (h : Reach Start step (fun _ _ => True) s) :
    (∀ e f, 0 < (s.itable e).ref → 0 < (s.itable f).ref → (s.itable e).key = (s.itable f).key → e = f) ∧
    (∀ e, 0 ≤ (s.itable e).ref) ∧
    s.frees.Nodup ∧
    (∀ a r, step s a = .error r → r = .disabled ∨ r = .noInodes) ∧
    (∀ p e, (s.itable e).lock = some p → s.pc p = .idle →
      (s.itable e).fields = s.dinode (s.itable e).key ∧ (s.itable e).fields.type ≠ 0 ∧
      (s.itable e).since p = s.born (s.itable e).key) := by
  have inv := inv_reach h
  refine ⟨inv.uniq, fun e => (inv.entry e).nonneg, inv.nodup, fun a r => refusal inv, fun p e hl hp => ?_⟩
  obtain ⟨-, hf, ht⟩ := (inv.entry e).fields_eq hl (by simp [hp]) (by simp [hp])
  have halive := (inv.entry e).alive p ((inv.entry e).lock p hl).1 (by simp [hp]) (by simp [hp])
  exact ⟨hf, hf ▸ ht, halive.2⟩

def oneFile : Sys (Fin 2) where
  ninodes := 2
  itable _ := ⟨(0, 0), 0, none, false, .zero, fun _ => 0, fun _ => 0⟩
  dinode k := if k = (1, 1) then { Dinode.zero with type := T_FILE, nlink := 1, size := 3 } else .zero
  pc _ := .idle
  born _ := 0
  frees := []

theorem inode_table_race : ∃ s : Sys (Fin 2), s.pc 0 = .drop 0 ∧ (s.itable 0).ref = 2 ∧ (s.itable 0).lock = some 1 ∧
    (s.itable 0).fields = { Dinode.zero with type := T_DEVICE } ∧ (s.itable 0).fields = s.dinode (s.itable 0).key := by
  let trace : List (Action (Fin 2)) := List.flatten [[.iget 0 (1, 1), .ilock 0 0, .run 0,
    .edit 0 0 { Dinode.zero with type := T_FILE, nlink := 0, size := 3 }, .iunlock 0 0, .iput 0 0, .run 0, .run 0],
    [.ialloc 1 1 T_DEVICE, .run 1, .run 1], [.run 0], [.ilock 1 0, .run 1]]
  have h : (run step (fun _ _ => true) oneFile trace).any (fun s => s.pc 0 = .drop 0 ∧ (s.itable 0).ref = 2 ∧
      (s.itable 0).lock = some 1 ∧ s.pc 1 = .idle ∧
      (s.itable 0).fields = { Dinode.zero with type := T_DEVICE }) = true := by
    decide +kernel
  obtain ⟨s, hrun, hs⟩ := (Option.any_eq_true _ _).mp h
  obtain ⟨hdrop, href, hlock, hidle, hfields⟩ := of_decide_eq_true hs
  have hstart : Start oneFile := ⟨fun _ => rfl, fun _ => rfl, fun _ _ => rfl, fun _ => rfl, rfl⟩
  have hmain := inode_table (Reach.of_run (fun _ _ _ => trivial) _ (.init hstart) hrun)
  exact ⟨s, hdrop, href, hlock, hfields, (hmain.2.2.2.2 1 0 hlock hidle).1⟩

end

end Xv6.Itable
