import Xv6.Virtio.Inv

/-! The steps of the processes, of the handler and of the device keep the invariant. -/

set_option linter.unusedSectionVars false

namespace Xv6.Virtio
open Lib

variable {P B D : Type} [DecidableEq P] [DecidableEq B] {s t : Sys P B D} {p q : P} {r : Rq B} {b : B}

/-- A step of `p` changes the position of `p`, the memory of its own request and its own buffer. -/
structure Own (s t : Sys P B D) (p : P) : Prop where
  pc : ∀ q, q ≠ p → t.pc q = s.pc q
  held : (t.pc p).held = (s.pc p).held
  -- a request that is under way stays so
  sent : (t.pc p).sent = (s.pc p).sent ∨
    (t.pc p).sent = none ∧ ∀ r, (s.pc p).sent = some r → (s.buf r.b).disk = false
  lock : ∀ q, q ≠ p → (s.pc q).inside = true → t.lock = s.lock
  owner : t.owner = s.owner
  buf : ∀ b, (s.pc p).buf ≠ some b → SameBuf (t.buf b) (s.buf b)
  free : t.disk.free = s.disk.free
  desc : ∀ i, s.disk.free i = false → i ∉ (s.pc p).held → t.disk.desc i = s.disk.desc i
  memory : ∀ i, i ∉ (s.pc p).held →
    t.disk.ops i = s.disk.ops i ∧ t.disk.info i = s.disk.info i ∧ t.served i = s.served i
  -- nothing is changed while the request is under way
  self : ∀ r, (t.pc p).sent = some r →
    t.disk.info r.i0 = s.disk.info r.i0 ∧ t.served r.i0 = s.served r.i0 ∧ SameBuf (t.buf r.b) (s.buf r.b)
  slot : (s.pc p).inside = true ∨ t.disk.avail = s.disk.avail ∧ t.disk.availIdx = s.disk.availIdx
  queue : t.queue = s.queue
  pending : t.pending = s.pending
  finished : t.finished = s.finished

namespace Own

theorem held_eq (h : Own s t p) (q : P) : (t.pc q).held = (s.pc q).held := by
  by_cases hq : q = p
  · rw [hq, h.held]
  · rw [h.pc q hq]

theorem sent_of (h : Own s t p) (hs : (t.pc q).sent = some r) : (s.pc q).sent = some r := by
  by_cases hq : q = p
  · subst hq
    rcases h.sent with he | ⟨hn, -⟩
    · rwa [he] at hs
    · rw [hn] at hs
      cases hs
  · rwa [h.pc q hq] at hs

theorem of_sent (h : Own s t p) (hs : (s.pc q).sent = some r) (hd : (s.buf r.b).disk = true) :
    (t.pc q).sent = some r := by
  by_cases hq : q = p
  · subst hq
    rcases h.sent with he | ⟨-, hf⟩
    · rwa [he]
    · rw [hf r hs] at hd
      cases hd
  · rwa [h.pc q hq]

theorem buf_ne (inv : Inv s) (hq : q ≠ p) (hb : (s.pc q).buf = some b) : (s.pc p).buf ≠ some b :=
  fun hp => hq (inv.buf_inj hb hp)

theorem held_ne (inv : Inv s) (hq : q ≠ p) {i : Nat} (hi : i ∈ (s.pc q).held) : i ∉ (s.pc p).held :=
  fun hp => hq (inv.excl q p i hi hp)

theorem same (h : Own s t p) (inv : Inv s) (hs : (t.pc q).sent = some r) :
    t.disk.info r.i0 = s.disk.info r.i0 ∧ t.served r.i0 = s.served r.i0 ∧ SameBuf (t.buf r.b) (s.buf r.b) := by
  by_cases hq : q = p
  · subst hq
    exact h.self r hs
  · rw [h.pc q hq] at hs
    obtain ⟨-, hinfo, hserved⟩ := h.memory _ (held_ne inv hq (Pc.i0_held_of_sent hs))
    exact ⟨hinfo, hserved, h.buf _ (buf_ne inv hq (Pc.buf_of_sent hs))⟩

theorem good (h : Own s t p) (inv : Inv s) (hq : q ≠ p) : Good t q := by
  refine (inv.good q).frame (h.pc q hq) (h.lock q hq) (fun b hb => ?_) (fun i hi => ?_) (fun i hi => ?_)
    (fun r hr => ?_) fun r hr => ?_
  · exact ⟨congrFun h.owner b, h.buf b (buf_ne inv hq hb)⟩
  · exact ⟨h.desc i ((inv.good q).held i hi).2 (held_ne inv hq hi), congrFun h.free i⟩
  · obtain ⟨hops, hinfo, -⟩ := h.memory i (held_ne inv hq hi)
    exact ⟨hops, by rw [hinfo]⟩
  · exact (h.memory _ (held_ne inv hq (Pc.i0_held_of_look hr))).2.2
  · rcases h.slot with hin | ⟨ha, hi⟩
    · have := inv.outside hin hq
      rw [hr] at this
      cases this
    · rw [ha, hi]

theorem inv (h : Own s t p) (inv : Inv s) (hgood : Good t p)
    (havail : Ring M t.disk.avail t.seen.toNat t.disk.availIdx.toNat t.offered t.taken)
    (hused : Ring M t.disk.used t.disk.usedIdx.toNat t.disk.deviceIdx.toNat t.returned t.handled) : Inv t where
  good q := by
    by_cases hq : q = p
    · exact hq ▸ hgood
    · exact h.good inv hq
  excl q q' i hi hi' := by
    rw [h.held_eq] at hi hi'
    exact inv.excl q q' i hi hi'
  cover i hi hf := by
    rw [h.free] at hf
    obtain ⟨q, hq⟩ := inv.cover i hi hf
    exact ⟨q, (h.held_eq q).symm ▸ hq⟩
  avail := havail
  used := hused
  nodup := by
    rw [Sys.out, h.queue, h.pending, h.finished]
    exact inv.nodup
  out x := by
    have hout : t.out = s.out := by rw [Sys.out, Sys.out, h.queue, h.pending, h.finished]
    rw [hout]
    refine (inv.out x).trans ⟨?_, ?_⟩
    · rintro ⟨q, r, hs, hi, hd⟩
      have ht := h.of_sent hs hd
      exact ⟨q, r, ht, hi, (h.same inv ht).2.2.2.trans hd⟩
    · rintro ⟨q, r, hs, hi, hd⟩
      exact ⟨q, r, h.sent_of hs, hi, (h.same inv hs).2.2.2.symm.trans hd⟩
  done x q r hx hs hi := by
    rw [h.pending, h.finished] at hx
    obtain ⟨hinfo, hserved, hsec, -⟩ := h.same inv hs
    obtain ⟨hst, hsv⟩ := inv.done x q r hx (h.sent_of hs) hi
    rw [← hi] at hst hsv ⊢
    rw [hinfo, hserved, Sys.want, hsec]
    exact ⟨hst, hsv⟩

end Own

theorem goto_pc_self (s : Sys P B D) (p : P) (pc : Pc B) : (s.goto p pc).pc p = pc := Function.update_self ..

theorem goto_pc_ne (s : Sys P B D) (pc : Pc B) (h : q ≠ p) : (s.goto p pc).pc q = s.pc q :=
  Function.update_of_ne h ..

theorem own_goto {pc : Pc B} {lock : Option (Holder P)} (held : pc.held = (s.pc p).held)
    (sent : pc.sent = (s.pc p).sent ∨ pc.sent = none ∧ ∀ r, (s.pc p).sent = some r → (s.buf r.b).disk = false)
    (hlock : ∀ q, q ≠ p → (s.pc q).inside = true → lock = s.lock) :
    Own s { s.goto p pc with lock := lock } p where
  pc q hq := goto_pc_ne s pc hq
  held := by
    change ((s.goto p pc).pc p).held = _
    rw [goto_pc_self, held]
  sent := by
    change ((s.goto p pc).pc p).sent = _ ∨ ((s.goto p pc).pc p).sent = none ∧ _
    rw [goto_pc_self]
    exact sent
  lock := hlock
  owner := rfl
  buf _ _ := ⟨rfl, rfl⟩
  free := rfl
  desc _ _ _ := rfl
  memory _ _ := ⟨rfl, rfl, rfl⟩
  self _ _ := ⟨rfl, rfl, rfl, rfl⟩
  slot := Or.inr ⟨rfl, rfl⟩
  queue := rfl
  pending := rfl
  finished := rfl

namespace Inv

theorem lock_of_inside (inv : Inv s) {lock : Option (Holder P)} (hp : (s.pc p).inside = true) :
    ∀ q, q ≠ p → (s.pc q).inside = true → lock = s.lock := fun q hq hin => by
  rw [inv.outside hp hq] at hin
  cases hin

theorem lock_of_free (inv : Inv s) {lock : Option (Holder P)} (hl : s.lock = none) :
    ∀ q, q ≠ p → (s.pc q).inside = true → lock = s.lock := fun q _ hin => by
  rw [inv.outside_of_free (Or.inl hl)] at hin
  cases hin

theorem acquireAt_cases {pc : Pc B} (h : s.acquireAt p pc = .ok t) :
    s.lock = none ∧ t = { s.goto p pc with lock := some (.proc p) } := by
  unfold Sys.acquireAt at h
  split at h
  · rename_i hl
    cases h
    exact ⟨hl, rfl⟩
  · cases h

theorem fresh (inv : Inv s) {write : Bool} (held : (s.pc p).held = []) (sent : (s.pc p).sent = none)
    (owner : s.owner b = some p) (h : s.acquireAt p (.alloc b write) = .ok t) : Inv t := by
  obtain ⟨hl, rfl⟩ := acquireAt_cases h
  refine (own_goto (by rw [held]; rfl) (Or.inl (by rw [sent]; rfl)) (inv.lock_of_free hl)).inv inv ?_ inv.avail inv.used
  have hpc : (s.goto p (.alloc b write)).pc p = .alloc b write := goto_pc_self ..
  constructor <;> simp [hpc, Pc.inside, Pc.buf, Pc.formatted, Pc.held, Pc.armed, Pc.sent]
  exact owner

theorem rw (inv : Inv s) {write : Bool} (h : s.rw p b write = .ok t) : Inv t := by
  unfold Sys.rw at h
  split at h
  · rename_i hp
    exact inv.fresh (by rw [hp.1]; rfl) (by rw [hp.1]; rfl) hp.2 h
  · cases h

theorem starved (inv : Inv s) {write : Bool} (hp : s.pc p = .starved b write)
    (h : s.acquireAt p (.alloc b write) = .ok t) : Inv t :=
  inv.fresh (by rw [hp]; rfl) (by rw [hp]; rfl) ((inv.good p).owner b (by rw [hp]; rfl)) h

end Inv

theorem Good.goto {pc : Pc B} {lock : Option (Holder P)} (h : Good s p) (sent : (s.pc p).sent = some r)
    (new : pc = .wait r ∨ pc = .asleep r ∨ pc = .clear r ∧ (s.buf r.b).disk = false)
    (hlock : pc.inside = true → lock = some (.proc p)) : Good { s.goto p pc with lock := lock } p := by
  have armed := Pc.armed_of_sent sent
  have formatted := Pc.formatted_of_armed armed
  have held := Pc.held_of_armed armed
  have hpc : pc.held = r.idx ∧ pc.formatted = some r ∧ pc.buf = some r.b ∧ (∀ r', pc.armed = some r' → r = r') ∧
      (∀ r', ¬ (pc = .ring r' ∨ pc = .publish r')) ∧ (∀ r' i, pc ≠ .freeing r' i) ∧
      ∀ r', pc.sent = some r' ∧ (s.buf r'.b).disk = false ∨ pc = .clear r' → r = r' ∧ (s.buf r.b).disk = false := by
    rcases new with rfl | rfl | ⟨rfl, hd⟩
    · simp only [Pc.held, Pc.formatted, Pc.buf, Pc.armed, Pc.sent]
      grind
    · simp only [Pc.held, Pc.formatted, Pc.buf, Pc.armed, Pc.sent]
      grind
    · simp only [Pc.held, Pc.formatted, Pc.buf, Pc.armed, Pc.sent]
      grind
  obtain ⟨h1, h2, h3, h4, h5, h6, h7⟩ := hpc
  have hself : (s.goto p pc).pc p = pc := goto_pc_self ..
  constructor <;> simp only [hself, h1, h2, h3]
  · exact hlock
  · rintro _ ⟨⟩
    exact h.owner r.b (Pc.buf_of_sent sent)
  · rintro _ ⟨⟩
    exact h.idx r formatted
  · exact held ▸ h.nodup
  · exact fun i hi => h.held i (held ▸ hi)
  · rintro _ ⟨⟩ i hi
    exact h.chain r formatted i (held ▸ hi)
  · intro r' hr'
    obtain rfl := h4 r' hr'
    exact h.header r armed
  · exact fun r' hr' => absurd hr' (h5 r')
  · exact fun r' hr' => absurd (Or.inr hr') (h5 r')
  · intro r' hr'
    obtain ⟨rfl, hd⟩ := h7 r' hr'
    exact h.served r (Or.inl ⟨sent, hd⟩)
  · exact fun r' i hr' => absurd hr' (h6 r' i)

namespace Inv

theorem sleeping (inv : Inv s) (hp : s.pc p = .wait r) : Inv (s.releaseAt p (.asleep r)) := by
  have hs : (s.pc p).sent = some r := by rw [hp]; rfl
  refine (own_goto (by rw [hp]; rfl) (Or.inl (by rw [hs]; rfl)) (inv.lock_of_inside (by rw [hp]; rfl))).inv inv ?_
    inv.avail inv.used
  exact (inv.good p).goto hs (Or.inr (Or.inl rfl)) (fun h => by cases h)

theorem awake (inv : Inv s) (hp : s.pc p = .asleep r) (h : s.acquireAt p (.wait r) = .ok t) : Inv t := by
  obtain ⟨hl, rfl⟩ := acquireAt_cases h
  have hs : (s.pc p).sent = some r := by rw [hp]; rfl
  refine (own_goto (by rw [hp]; rfl) (Or.inl (by rw [hs]; rfl)) (inv.lock_of_free hl)).inv inv ?_ inv.avail inv.used
  exact (inv.good p).goto hs (Or.inl rfl) (fun _ => rfl)

theorem waited (inv : Inv s) (hp : s.pc p = .wait r) (hd : (s.buf r.b).disk = false) : Inv (s.goto p (.clear r)) := by
  have hs : (s.pc p).sent = some r := by rw [hp]; rfl
  have hin : (s.pc p).inside = true := by rw [hp]; rfl
  have hown : Own s { s.goto p (.clear r) with lock := s.lock } p := by
    refine own_goto (by rw [hp]; rfl) (Or.inr ⟨rfl, fun r' hr' => ?_⟩) (inv.lock_of_inside hin)
    obtain rfl := Option.some.inj (hs.symm.trans hr')
    exact hd
  have hgood : Good { s.goto p (.clear r) with lock := s.lock } p :=
    (inv.good p).goto hs (Or.inr (Or.inr ⟨rfl, hd⟩)) (fun _ => (inv.good p).lock hin)
  exact hown.inv inv hgood inv.avail inv.used

end Inv

/-! ### Allocation -/

namespace Disk
variable {k k' : Disk B} {i i0 i1 i2 : Nat}

theorem allocDesc_some (h : k.allocDesc = some (i, k')) : i < NUM ∧ k.free i = true ∧ k' = k.take i := by
  obtain ⟨j, hj, he⟩ := Option.map_eq_some_iff.mp h
  cases he
  exact ⟨List.mem_range.mp (List.mem_of_find?_eq_some hj), List.find?_some hj, rfl⟩

theorem freeDesc_taken (hi : i < NUM) (hf : k.free i = false) : k.freeDesc i = .ok (k.give i) := by
  unfold freeDesc
  rw [if_neg (by omega), if_neg (by simp [hf])]

theorem take_free (k : Disk B) (i j : Nat) : (k.take i).free j = if j = i then false else k.free j :=
  Function.update_apply ..

theorem give_free (k : Disk B) (i j : Nat) : (k.give i).free j = if j = i then true else k.free j :=
  Function.update_apply ..

/-- The part of the driver's memory that `alloc3_desc` does not write: all but the free descriptors. -/
structure Rest (k k' : Disk B) : Prop where
  free : k'.free = k.free
  desc : ∀ i, k.free i = false → k'.desc i = k.desc i
  info : k'.info = k.info
  ops : k'.ops = k.ops
  avail : k'.avail = k.avail ∧ k'.availIdx = k.availIdx
  used : k'.used = k.used ∧ k'.deviceIdx = k.deviceIdx ∧ k'.usedIdx = k.usedIdx

theorem rest_one (h0 : k.free i0 = true) : Rest k ((k.take i0).give i0) where
  free := by
    funext j
    rw [give_free, take_free]
    split
    · rename_i hj
      rw [hj, h0]
    · rfl
  desc i hi := by
    have hne : i ≠ i0 := fun he => by rw [he, h0] at hi; cases hi
    exact Function.update_of_ne hne ..
  info := rfl
  ops := rfl
  avail := ⟨rfl, rfl⟩
  used := ⟨rfl, rfl, rfl⟩

theorem rest_two (h0 : k.free i0 = true) (h1 : k.free i1 = true) :
    Rest k ((((k.take i0).take i1).give i0).give i1) where
  free := by
    funext j
    rw [give_free, give_free, take_free, take_free]
    split
    · rename_i hj
      rw [hj, h1]
    split
    · rename_i hj
      rw [hj, h0]
    · rfl
  desc i hi := by
    have hne0 : i ≠ i0 := fun he => by rw [he, h0] at hi; cases hi
    have hne1 : i ≠ i1 := fun he => by rw [he, h1] at hi; cases hi
    exact (Function.update_of_ne hne1 ..).trans (Function.update_of_ne hne0 ..)
  info := rfl
  ops := rfl
  avail := ⟨rfl, rfl⟩
  used := ⟨rfl, rfl, rfl⟩

theorem alloc3Desc_cases (k : Disk B) :
    (∃ i0 i1 i2, [i0, i1, i2].Nodup ∧ (∀ i ∈ [i0, i1, i2], i < NUM ∧ k.free i = true) ∧
      k.alloc3Desc = .ok (some (i0, i1, i2), ((k.take i0).take i1).take i2)) ∨
    ∃ k', k.alloc3Desc = .ok (none, k') ∧ Rest k k' := by
  cases h0 : k.allocDesc with
  | none => exact Or.inr ⟨k, by simp [alloc3Desc, h0], rfl, fun _ _ => rfl, rfl, rfl, ⟨rfl, rfl⟩, rfl, rfl, rfl⟩
  | some x0 =>
    obtain ⟨i0, k0⟩ := x0
    obtain ⟨hi0, hf0, rfl⟩ := allocDesc_some h0
    cases h1 : (k.take i0).allocDesc with
    | none =>
      have hfree := freeDesc_taken (k := k.take i0) hi0 (by simp [take_free])
      exact Or.inr ⟨_, by simp [alloc3Desc, h0, h1, hfree, bind, Except.bind], rest_one hf0⟩
    | some x1 =>
      obtain ⟨i1, k1⟩ := x1
      obtain ⟨hi1, hf1, rfl⟩ := allocDesc_some h1
      rw [take_free] at hf1
      split at hf1
      · cases hf1
      rename_i h10
      cases h2 : ((k.take i0).take i1).allocDesc with
      | none =>
        have hfree0 := freeDesc_taken (k := (k.take i0).take i1) hi0 (by simp [take_free])
        have hfree1 := freeDesc_taken (k := ((k.take i0).take i1).give i0) hi1 (by simp [take_free, give_free, h10])
        exact Or.inr ⟨_, by simp [alloc3Desc, h0, h1, h2, hfree0, hfree1, bind, Except.bind], rest_two hf0 hf1⟩
      | some x2 =>
        obtain ⟨i2, k2⟩ := x2
        obtain ⟨hi2, hf2, rfl⟩ := allocDesc_some h2
        rw [take_free, take_free] at hf2
        split at hf2
        · cases hf2
        rename_i h21
        split at hf2
        · cases hf2
        rename_i h20
        refine Or.inl ⟨i0, i1, i2, ?_, ?_, by simp [alloc3Desc, h0, h1, h2]⟩
        · simp [Ne.symm h10, Ne.symm h21, Ne.symm h20]
        · simp [hi0, hi1, hi2, hf0, hf1, hf2]

end Disk

namespace Inv

theorem allocStep_cases {write : Bool} (h : s.allocStep p b write = .ok t) :
    (∃ i0 i1 i2, [i0, i1, i2].Nodup ∧ (∀ i ∈ [i0, i1, i2], i < NUM ∧ s.disk.free i = true) ∧
      t = { s.goto p (.format { b, write, i0, i1, i2 }) with disk := ((s.disk.take i0).take i1).take i2 }) ∨
    ∃ k', Disk.Rest s.disk k' ∧ t = { s.releaseAt p (.starved b write) with disk := k' } := by
  obtain ⟨⟨idx, k⟩, hk, h⟩ := bind_eq_ok.mp h
  rcases s.disk.alloc3Desc_cases with ⟨i0, i1, i2, hnd, hfree, he⟩ | ⟨k', he, hrest⟩
  · rw [he] at hk
    cases hk
    cases h
    exact Or.inl ⟨i0, i1, i2, hnd, hfree, rfl⟩
  · rw [he] at hk
    cases hk
    cases h
    exact Or.inr ⟨_, hrest, rfl⟩

theorem allocated (inv : Inv s) {write : Bool} {i0 i1 i2 : Nat} (hp : s.pc p = .alloc b write)
    (hnd : [i0, i1, i2].Nodup) (hfree : ∀ i ∈ [i0, i1, i2], i < NUM ∧ s.disk.free i = true) :
    Inv { s.goto p (.format { b, write, i0, i1, i2 }) with disk := ((s.disk.take i0).take i1).take i2 } := by
  have hin : (s.pc p).inside = true := by rw [hp]; rfl
  have hself : (s.goto p (.format { b, write, i0, i1, i2 })).pc p = .format { b, write, i0, i1, i2 } :=
    goto_pc_self ..
  have hne : ∀ q, q ≠ p → (s.goto p (.format { b, write, i0, i1, i2 })).pc q = s.pc q := fun q hq =>
    goto_pc_ne s _ hq
  have htake : ∀ i, (((s.disk.take i0).take i1).take i2).free i =
      if i ∈ [i0, i1, i2] then false else s.disk.free i := by
    intro i
    simp only [Disk.take_free, List.mem_cons, List.not_mem_nil, or_false]
    grind
  have hheld : ∀ q i, i ∈ ((s.goto p (.format { b, write, i0, i1, i2 })).pc q).held →
      q = p ∧ i ∈ [i0, i1, i2] ∨ q ≠ p ∧ i ∈ (s.pc q).held := by
    intro q i hi
    by_cases hq : q = p
    · subst hq
      rw [hself] at hi
      exact Or.inl ⟨rfl, hi⟩
    · rw [hne q hq] at hi
      exact Or.inr ⟨hq, hi⟩
  have hsent : ∀ q, ((s.goto p (.format { b, write, i0, i1, i2 })).pc q).sent = (s.pc q).sent := by
    intro q
    by_cases hq : q = p
    · subst hq
      rw [hself, hp]
      rfl
    · rw [hne q hq]
  refine ⟨fun q => ?_, fun q q' i hi hi' => ?_, fun i hi hf => ?_, inv.avail, inv.used, inv.nodup, fun h => ?_,
    fun h q r hh hs hi => inv.done h q r hh (hsent q ▸ hs) hi⟩
  · by_cases hq : q = p
    · subst hq
      constructor <;> simp only [hself, Pc.inside, Pc.buf, Pc.formatted, Pc.armed, Pc.sent]
      · exact fun _ => (inv.good q).lock hin
      · rintro _ ⟨⟩
        exact (inv.good q).owner b (by rw [hp]; rfl)
      · simp
      · exact hnd
      · exact fun i hi => ⟨(hfree i hi).1, (htake i).trans (if_pos hi)⟩
      all_goals simp
    · refine (inv.good q).frame (hne q hq) (fun _ => rfl) (fun _ _ => ⟨rfl, rfl, rfl⟩) (fun i hi => ⟨rfl, ?_⟩)
        (fun _ _ => ⟨rfl, rfl⟩) (fun _ _ => rfl) (fun _ _ => rfl)
      refine (htake i).trans ?_
      rw [((inv.good q).held i hi).2, ite_self]
  · -- what others hold is not free
    have hold : ∀ {q i}, i ∈ (s.pc q).held → i ∉ [i0, i1, i2] := fun {q i} hi hm => by
      have := ((inv.good q).held i hi).2
      rw [(hfree i hm).2] at this
      cases this
    rcases hheld q i hi with ⟨rfl, hm⟩ | ⟨-, hm⟩ <;> rcases hheld q' i hi' with ⟨rfl, hm'⟩ | ⟨-, hm'⟩
    · rfl
    · exact absurd hm (hold hm')
    · exact absurd hm' (hold hm)
    · exact inv.excl q q' i hm hm'
  · by_cases hm : i ∈ [i0, i1, i2]
    · exact ⟨p, by rw [hself]; exact hm⟩
    · have hf : s.disk.free i = false := by
        have := (htake i).symm.trans hf
        rwa [if_neg hm] at this
      obtain ⟨q, hq⟩ := inv.cover i hi hf
      have hqp : q ≠ p := fun he => by
        rw [he, hp] at hq
        cases hq
      exact ⟨q, by rw [hne q hqp]; exact hq⟩
  · refine (inv.out h).trans ?_
    simp only [hsent]
    exact Iff.rfl

theorem allocStep (inv : Inv s) {write : Bool} (hp : s.pc p = .alloc b write) (h : s.allocStep p b write = .ok t) :
    Inv t := by
  have hin : (s.pc p).inside = true := by rw [hp]; rfl
  have howner : s.owner b = some p := (inv.good p).owner b (by rw [hp]; rfl)
  rcases allocStep_cases h with ⟨i0, i1, i2, hnd, hfree, rfl⟩ | ⟨k', hrest, rfl⟩
  · exact inv.allocated hp hnd hfree
  · have hself : (s.goto p (.starved b write)).pc p = .starved b write := goto_pc_self ..
    have hown : Own s { s.releaseAt p (.starved b write) with disk := k' } p :=
      { own_goto (by rw [hp]; rfl) (Or.inl (by rw [hp]; rfl)) (inv.lock_of_inside hin) with
        free := hrest.free
        desc := fun i hi _ => hrest.desc i hi
        memory := fun i _ => ⟨congrFun hrest.ops i, congrFun hrest.info i, rfl⟩
        self := fun r hr => by
          change ((s.goto p (.starved b write)).pc p).sent = some r at hr
          rw [hself] at hr
          cases hr
        slot := Or.inr hrest.avail }
    refine hown.inv inv ?_ ?_ ?_
    · constructor <;> simp [Sys.releaseAt, hself, Pc.inside, Pc.buf, Pc.formatted, Pc.held, Pc.armed, Pc.sent]
      exact howner
    · change Ring M k'.avail s.seen.toNat k'.availIdx.toNat s.offered s.taken
      rw [hrest.avail.1, hrest.avail.2]
      exact inv.avail
    · change Ring M k'.used k'.usedIdx.toNat k'.deviceIdx.toNat s.returned s.handled
      rw [hrest.used.1, hrest.used.2.1, hrest.used.2.2]
      exact inv.used

end Inv

/-! ### Formatting and publishing -/

namespace Disk
variable {k : Disk B} {i : Nat} {sector : UInt64}

theorem format_desc (hnd : r.idx.Nodup) (hi : i ∈ r.idx) : (k.format r sector).desc i = r.desc i := by
  simp only [Rq.idx, List.nodup_cons, List.mem_cons, List.not_mem_nil, or_false, not_or] at hnd hi
  simp only [format, Rq.desc, Function.update_apply]
  grind

theorem format_desc_ne (hi : i ∉ r.idx) : (k.format r sector).desc i = k.desc i := by
  simp only [Rq.idx, List.mem_cons, List.not_mem_nil, or_false, not_or] at hi
  simp only [format, Function.update_apply]
  grind

theorem format_ne (hi : i ∉ r.idx) :
    (k.format r sector).ops i = k.ops i ∧ (k.format r sector).info i = k.info i := by
  have hne : i ≠ r.i0 := fun he => hi (he ▸ r.i0_mem)
  exact ⟨Function.update_of_ne hne .., Function.update_of_ne hne ..⟩

end Disk

theorem Good.carry (hg : Good s p) (hin : (s.pc p).inside = true) (hbuf : (s.pc p).buf = some r.b)
    (hfmt : (s.pc p).formatted = some r) (hbuf' : (t.pc p).buf = some r.b) (hfmt' : (t.pc p).formatted = some r)
    (hheld : (t.pc p).held = (s.pc p).held) (hlock : t.lock = s.lock) (howner : t.owner = s.owner)
    (hfree : t.disk.free = s.disk.free) (hdesc : t.disk.desc = s.disk.desc)
    (header : ∀ r, (t.pc p).armed = some r →
      t.disk.ops r.i0 = { type := r.write, sector := (t.buf r.b).sector } ∧ (t.disk.info r.i0).b = some r.b)
    (prior : ∀ r, t.pc p = .ring r ∨ t.pc p = .publish r → (t.buf r.b).disk = true)
    (slot : ∀ r, t.pc p = .publish r → t.disk.avail (Fin.ofNat NUM t.disk.availIdx.toNat) = r.i0)
    (served : ∀ r, (t.pc p).sent = some r ∧ (t.buf r.b).disk = false ∨ t.pc p = .clear r →
      t.served r.i0 = some (t.want r))
    (place : ∀ r i, t.pc p = .freeing r i → i ∈ r.idx) : Good t p where
  lock _ := hlock.trans (hg.lock hin)
  owner b hb := by
    rw [hbuf'] at hb
    rw [howner, ← Option.some.inj hb]
    exact hg.owner r.b hbuf
  idx r' hr := by
    rw [hfmt'] at hr
    exact Option.some.inj hr ▸ hg.idx r hfmt
  nodup := hheld ▸ hg.nodup
  held i hi := hfree ▸ hg.held i (hheld ▸ hi)
  chain r' hr i hi := by
    rw [hfmt'] at hr
    rw [hdesc, ← Option.some.inj hr]
    exact hg.chain r hfmt i (hheld ▸ hi)
  header := header
  prior := prior
  slot := slot
  served := served
  place := place

namespace Inv

theorem formatStep (inv : Inv s) (hp : s.pc p = .format r) : Inv (s.formatStep p r) := by
  have hin : (s.pc p).inside = true := by rw [hp]; rfl
  have hheld : (s.pc p).held = r.idx := by rw [hp]; rfl
  have hnd : r.idx.Nodup := hheld ▸ (inv.good p).nodup
  have hself : (s.formatStep p r).pc p = .ring r := Function.update_self ..
  have hbuf : (s.formatStep p r).buf r.b = { s.buf r.b with disk := true } := Function.update_self ..
  have hown : Own s (s.formatStep p r) p :=
    { pc := fun q hq => Function.update_of_ne hq ..
      held := by rw [hself, hheld]; rfl
      sent := by rw [hself, hp]; exact Or.inl rfl
      lock := fun q hq hq' => rfl
      owner := rfl
      buf := fun b hb => by
        have hne : b ≠ r.b := fun he => hb (by rw [hp, he]; rfl)
        have he : (s.formatStep p r).buf b = s.buf b := Function.update_of_ne hne ..
        rw [he]
        exact ⟨rfl, rfl⟩
      free := rfl
      desc := fun i _ hi => Disk.format_desc_ne (hheld ▸ hi)
      memory := fun i hi => by
        have hi : i ∉ r.idx := hheld ▸ hi
        have hne : i ≠ r.i0 := fun he => hi (he ▸ r.i0_mem)
        exact ⟨(Disk.format_ne hi).1, (Disk.format_ne hi).2, Function.update_of_ne hne ..⟩
      self := fun r' hr' => by
        rw [hself] at hr'
        cases hr'
      slot := Or.inl hin
      queue := rfl
      pending := rfl
      finished := rfl }
  refine hown.inv inv ?_ inv.avail inv.used
  constructor <;> simp only [hself, Pc.inside, Pc.buf, Pc.formatted, Pc.armed, Pc.sent, Pc.held]
  · exact fun _ => (inv.good p).lock hin
  · rintro _ ⟨⟩
    exact (inv.good p).owner r.b (by rw [hp]; rfl)
  · rintro _ ⟨⟩
    exact hnd
  · exact hnd
  · exact fun i hi => (inv.good p).held i (hheld ▸ hi)
  · rintro _ ⟨⟩ i hi
    exact Disk.format_desc hnd hi
  · rintro _ ⟨⟩
    rw [hbuf]
    simp [Sys.formatStep, Disk.format, Buf.sector]
  · rintro r' (hr | hr) <;> cases hr
    rw [hbuf]
  all_goals simp

theorem avail_not_full (inv : Inv s) {i : Nat} (hi : i ∈ (s.pc p).held) (hs : (s.pc p).sent = none) :
    s.disk.availIdx.toNat ≠ (s.seen.toNat + NUM) % M :=
  not_full inv.avail (inv.avail_room ((inv.good p).held i hi).1 (inv.not_out hi hs))

theorem ringStep (inv : Inv s) (hp : s.pc p = .ring r) : Inv (s.ringStep p r) := by
  have hin : (s.pc p).inside = true := by rw [hp]; rfl
  have hg := inv.good p
  have hi0 : r.i0 ∈ (s.pc p).held := by rw [hp]; exact r.i0_mem
  have hself : (s.ringStep p r).pc p = .publish r := Function.update_self ..
  have hown : Own s (s.ringStep p r) p :=
    { pc := fun q hq => Function.update_of_ne hq ..
      held := by rw [hself, hp]; rfl
      sent := by rw [hself, hp]; exact Or.inl rfl
      lock := fun _ _ _ => rfl
      owner := rfl
      buf := fun _ _ => ⟨rfl, rfl⟩
      free := rfl
      desc := fun _ _ _ => rfl
      memory := fun _ _ => ⟨rfl, rfl, rfl⟩
      self := fun _ _ => ⟨rfl, rfl, rfl, rfl⟩
      slot := Or.inl hin
      queue := rfl
      pending := rfl
      finished := rfl }
  refine hown.inv inv ?_ ?_ inv.used
  · refine hg.carry hin (by rw [hp]; rfl) (by rw [hp]; rfl) (by rw [hself]; rfl) (by rw [hself]; rfl)
      (by rw [hself, hp]; rfl) rfl rfl rfl rfl ?_ ?_ ?_ ?_ ?_ <;> simp only [hself, Pc.armed, Pc.sent]
    · rintro _ ⟨⟩
      exact hg.header r (by rw [hp]; rfl)
    · rintro r' (hr | hr) <;> cases hr
      exact hg.prior r (Or.inl hp)
    · rintro _ ⟨⟩
      exact Function.update_self ..
    all_goals simp
  · exact inv.avail.poke (by decide) (by decide) (inv.avail_not_full hi0 (by rw [hp]; rfl)) r.i0

theorem toNat_succ (x : UInt16) : (x + 1).toNat = (x.toNat + 1) % M := by
  rw [UInt16.toNat_add]
  rfl

theorem drop_append {l : List Nat} {n : Nat} (h : n ≤ l.length) (x : Nat) :
    (l ++ [x]).drop n = l.drop n ++ [x] := List.drop_append_of_le_length h

theorem publishStep (inv : Inv s) (hp : s.pc p = .publish r) : Inv (s.publishStep p r) := by
  have hin : (s.pc p).inside = true := by rw [hp]; rfl
  have hg := inv.good p
  have hi0 : r.i0 ∈ (s.pc p).held := by rw [hp]; exact r.i0_mem
  have hnone : (s.pc p).sent = none := by rw [hp]; rfl
  have hnew : r.i0 ∉ s.out := inv.not_out hi0 hnone
  have hself : (s.publishStep p r).pc p = .wait r := Function.update_self ..
  have hne : ∀ q, q ≠ p → (s.publishStep p r).pc q = s.pc q := fun q hq => Function.update_of_ne hq ..
  have hheld : ∀ q, ((s.publishStep p r).pc q).held = (s.pc q).held := by
    intro q
    by_cases hq : q = p
    · rw [hq, hself, hp]; rfl
    · rw [hne q hq]
  have hqueue : (s.publishStep p r).queue = s.queue ++ [r.i0] := drop_append inv.avail.fifo.length_le _
  have hout : ((s.publishStep p r).out).Perm (r.i0 :: s.out) := by
    change ((s.publishStep p r).queue ++ s.pending.map Prod.fst ++ s.finished).Perm _
    rw [hqueue, Sys.out, List.append_assoc, List.append_assoc, List.append_assoc]
    exact List.perm_middle
  have hsent : ∀ q r', ((s.publishStep p r).pc q).sent = some r' ↔ q = p ∧ r' = r ∨ (s.pc q).sent = some r' := by
    intro q r'
    by_cases hq : q = p
    · subst hq
      rw [hself, hnone]
      simp [Pc.sent, eq_comm]
    · rw [hne q hq]
      simp [hq]
  refine ⟨fun q => ?_, fun q q' i hi hi' => ?_, fun i hi hf => ?_, ?_, inv.used, ?_, fun h => ?_,
    fun h q r' hh hs hi => ?_⟩
  · by_cases hq : q = p
    · subst hq
      refine hg.carry hin (by rw [hp]; rfl) (by rw [hp]; rfl) (by rw [hself]; rfl) (by rw [hself]; rfl)
        (by rw [hself, hp]; rfl) rfl rfl rfl rfl ?_ ?_ ?_ ?_ ?_ <;> simp only [hself, Pc.armed, Pc.sent]
      · rintro _ ⟨⟩
        exact hg.header r (by rw [hp]; rfl)
      · simp
      · simp
      · rintro r' (⟨hr, hd⟩ | hr) <;> cases hr
        have := hg.prior r (Or.inr hp)
        rw [show (s.buf r.b).disk = false from hd] at this
        cases this
      · simp
    · refine (inv.good q).frame (hne q hq) (fun _ => rfl) (fun _ _ => ⟨rfl, rfl, rfl⟩) (fun _ _ => ⟨rfl, rfl⟩)
        (fun _ _ => ⟨rfl, rfl⟩) (fun _ _ => rfl) (fun r' hr' => ?_)
      have := inv.outside hin hq
      rw [hr'] at this
      cases this
  · rw [hheld] at hi hi'
    exact inv.excl q q' i hi hi'
  · obtain ⟨q, hq⟩ := inv.cover i hi hf
    exact ⟨q, (hheld q).symm ▸ hq⟩
  · have hadv := inv.avail.advance (by decide) (by decide) (inv.avail_not_full hi0 hnone)
    rw [hg.slot r hp] at hadv
    change Ring M s.disk.avail s.seen.toNat (s.disk.availIdx + 1).toNat (s.offered ++ [r.i0]) s.taken
    rw [toNat_succ]
    exact hadv
  · exact hout.nodup_iff.mpr (List.nodup_cons.mpr ⟨hnew, inv.nodup⟩)
  · rw [hout.mem_iff, List.mem_cons, inv.out h]
    constructor
    · rintro (rfl | ⟨q, r', hs, hi, hd⟩)
      · exact ⟨p, r, (hsent p r).mpr (Or.inl ⟨rfl, rfl⟩), rfl, hg.prior r (Or.inr hp)⟩
      · exact ⟨q, r', (hsent q r').mpr (Or.inr hs), hi, hd⟩
    · rintro ⟨q, r', hs, hi, hd⟩
      rcases (hsent q r').mp hs with ⟨rfl, rfl⟩ | hs
      · exact Or.inl hi.symm
      · exact Or.inr ⟨q, r', hs, hi, hd⟩
  · rcases (hsent q r').mp hs with ⟨rfl, rfl⟩ | hs
    · -- the new head is not with the device yet
      refine absurd (hi ▸ ?_) hnew
      rcases hh with hh | hh
      · exact List.mem_append_left _ (List.mem_append_right _ (List.mem_map.mpr ⟨_, hh, rfl⟩))
      · exact List.mem_append_right _ hh
    · exact inv.done h q r' hh hs hi

theorem clearStep (inv : Inv s) (hp : s.pc p = .clear r) : Inv (s.clearStep p r) := by
  have hin : (s.pc p).inside = true := by rw [hp]; rfl
  have hg := inv.good p
  have hself : (s.clearStep p r).pc p = .freeing r r.i0 := Function.update_self ..
  have hfree : (Pc.freeing r r.i0).held = r.idx := if_pos rfl
  have hown : Own s (s.clearStep p r) p :=
    { pc := fun q hq => Function.update_of_ne hq ..
      held := by rw [hself, hp, hfree]; rfl
      sent := by rw [hself, hp]; exact Or.inl rfl
      lock := fun _ _ _ => rfl
      owner := rfl
      buf := fun _ _ => ⟨rfl, rfl⟩
      free := rfl
      desc := fun _ _ _ => rfl
      memory := fun i hi => by
        have hne : i ≠ r.i0 := fun he => hi (by rw [hp, he]; exact r.i0_mem)
        exact ⟨rfl, Function.update_of_ne hne .., rfl⟩
      self := fun r' hr' => by
        rw [hself] at hr'
        cases hr'
      slot := Or.inl hin
      queue := rfl
      pending := rfl
      finished := rfl }
  refine hown.inv inv ?_ inv.avail inv.used
  refine hg.carry hin (by rw [hp]; rfl) (by rw [hp]; rfl) (by rw [hself]; rfl) (by rw [hself]; rfl)
    (by rw [hself, hfree, hp]; rfl) rfl rfl rfl rfl ?_ ?_ ?_ ?_ ?_ <;> simp only [hself, Pc.armed, Pc.sent]
  · simp
  · simp
  · simp
  · simp
  · rintro _ _ ⟨⟩
    exact r.i0_mem

theorem freed (inv : Inv s) {i : Nat} {pc : Pc B} {lock : Option (Holder P)} (hp : s.pc p = .freeing r i)
    (hheld : (s.pc p).held = i :: pc.held) (hpc : pc = .idle ∨ ∃ j, pc = .freeing r j ∧ j ∈ r.idx)
    (hlock : pc.inside = true → lock = some (.proc p)) :
    Inv { s.goto p pc with lock := lock, disk := s.disk.give i } := by
  have hin : (s.pc p).inside = true := by rw [hp]; rfl
  have hg := inv.good p
  have hnd : (i :: pc.held).Nodup := hheld ▸ hg.nodup
  have hi := List.nodup_cons.mp hnd
  have hself : (s.goto p pc).pc p = pc := goto_pc_self ..
  have hne : ∀ q, q ≠ p → (s.goto p pc).pc q = s.pc q := fun q hq => goto_pc_ne s pc hq
  have hsub : ∀ q j, j ∈ ((s.goto p pc).pc q).held → j ≠ i ∧ j ∈ (s.pc q).held := by
    intro q j hj
    by_cases hq : q = p
    · subst hq
      rw [hself] at hj
      exact ⟨fun he => hi.1 (he ▸ hj), hheld ▸ List.mem_cons_of_mem _ hj⟩
    · rw [hne q hq] at hj
      refine ⟨fun he => hq (inv.excl q p i (he ▸ hj) ?_), hj⟩
      rw [hheld]
      exact List.mem_cons_self
  have hsent : ∀ q, ((s.goto p pc).pc q).sent = (s.pc q).sent := by
    intro q
    by_cases hq : q = p
    · subst hq
      rw [hself, hp]
      rcases hpc with rfl | ⟨j, rfl, -⟩ <;> rfl
    · rw [hne q hq]
  have hdesc : ∀ j, j ≠ i → (s.disk.give i).desc j = s.disk.desc j := fun j hj => Function.update_of_ne hj ..
  have hfree : ∀ j, j ≠ i → (s.disk.give i).free j = s.disk.free j := fun j hj => Function.update_of_ne hj ..
  refine ⟨fun q => ?_, fun q q' j hj hj' => inv.excl q q' j (hsub q j hj).2 (hsub q' j hj').2, fun j hj hf => ?_,
    inv.avail, inv.used, inv.nodup, fun h => ?_, fun h q r' hh hs hi => inv.done h q r' hh (hsent q ▸ hs) hi⟩
  · by_cases hq : q = p
    · subst hq
      have hkeep : ∀ j ∈ pc.held, j < NUM ∧ (s.disk.give i).free j = false := fun j hj => by
        have hjs := hsub q j (by rw [hself]; exact hj)
        rw [hfree j hjs.1]
        exact hg.held j hjs.2
      rcases hpc with rfl | ⟨j, rfl, hj⟩
      · constructor <;> simp [hself, Pc.inside, Pc.buf, Pc.formatted, Pc.armed, Pc.sent, Pc.held]
      · constructor <;> simp only [hself]
        · exact hlock
        · rintro _ ⟨⟩
          exact hg.owner r.b (by rw [hp]; rfl)
        · rintro _ ⟨⟩
          exact hg.idx r (by rw [hp]; rfl)
        · exact hi.2
        · exact hkeep
        · rintro _ ⟨⟩ l hl
          have hls := hsub q l (by rw [hself]; exact hl)
          exact (hdesc l hls.1).trans (hg.chain r (by rw [hp]; rfl) l hls.2)
        · rintro _ ⟨⟩
        · simp
        · simp
        · rintro r' (⟨hr, -⟩ | hr) <;> cases hr
        · rintro _ _ ⟨⟩
          exact hj
    · refine (inv.good q).frame (hne q hq) (inv.lock_of_inside hin q hq) (fun _ _ => ⟨rfl, rfl, rfl⟩) (fun j hj => ?_)
        (fun _ _ => ⟨rfl, rfl⟩) (fun _ _ => rfl) (fun _ _ => rfl)
      have hji := (hsub q j (by rw [hne q hq]; exact hj)).1
      exact ⟨hdesc j hji, hfree j hji⟩
  · by_cases hji : j = i
    · have hgive : (s.disk.give i).free i = true := Function.update_self ..
      rw [hji] at hf
      exact absurd (hgive.symm.trans hf) (by simp)
    · obtain ⟨q, hq⟩ := inv.cover j hj ((hfree j hji).symm.trans hf)
      refine ⟨q, ?_⟩
      by_cases hqp : q = p
      · subst hqp
        rw [hheld] at hq
        rw [hself]
        exact (List.mem_cons.mp hq).resolve_left hji
      · rw [hne q hqp]
        exact hq
  · refine (inv.out h).trans ?_
    simp only [hsent]
    exact Iff.rfl

theorem freeStep_eq (inv : Inv s) {i : Nat} (hp : s.pc p = .freeing r i) :
    (i = r.i0 ∧ s.freeStep p r i = .ok { s.goto p (.freeing r r.i1) with disk := s.disk.give i }) ∨
    (i ≠ r.i0 ∧ i = r.i1 ∧ s.freeStep p r i = .ok { s.goto p (.freeing r r.i2) with disk := s.disk.give i }) ∨
    (i ≠ r.i0 ∧ i ≠ r.i1 ∧ i = r.i2 ∧ s.freeStep p r i = .ok { s.releaseAt p .idle with disk := s.disk.give i }) := by
  have hg := inv.good p
  have hmem := hg.place r i hp
  have hheld : i ∈ (s.pc p).held := by
    rw [hp]
    simp only [Rq.idx, List.mem_cons, List.not_mem_nil, or_false] at hmem
    simp only [Pc.held, Rq.idx]
    grind
  have hdesc := hg.chain r (by rw [hp]; rfl) i hheld
  have hok := Disk.freeDesc_taken (hg.held i hheld).1 (hg.held i hheld).2
  have hstep : s.freeStep p r i = if (r.desc i).flags &&& F_NEXT ≠ 0 then
      .ok { s.goto p (.freeing r (r.desc i).next) with disk := s.disk.give i }
      else .ok { s.releaseAt p .idle with disk := s.disk.give i } := by
    simp only [Sys.freeStep, hdesc, hok, bind, Except.bind]
  by_cases h0 : i = r.i0
  · refine Or.inl ⟨h0, ?_⟩
    rw [hstep, Rq.desc, if_pos h0, if_pos (show F_NEXT &&& F_NEXT ≠ 0 by decide)]
  by_cases h1 : i = r.i1
  · refine Or.inr (Or.inl ⟨h0, h1, ?_⟩)
    have hflags : ((if r.write then 0 else F_WRITE) ||| F_NEXT) &&& F_NEXT ≠ 0 := by cases r.write <;> decide
    rw [hstep, Rq.desc, if_neg h0, if_pos h1, if_pos hflags]
  · refine Or.inr (Or.inr ⟨h0, h1, ?_, ?_⟩)
    · simpa [Rq.idx, h0, h1] using hmem
    · rw [hstep, Rq.desc, if_neg h0, if_neg h1, if_neg (show ¬ F_WRITE &&& F_NEXT ≠ 0 by decide)]

theorem freeStep (inv : Inv s) {i : Nat} (hp : s.pc p = .freeing r i) (h : s.freeStep p r i = .ok t) : Inv t := by
  have hin : (s.pc p).inside = true := by rw [hp]; rfl
  have hl := (inv.good p).lock hin
  have hnd := (inv.good p).idx r (by rw [hp]; rfl)
  simp only [Rq.idx, List.nodup_cons, List.mem_cons, List.not_mem_nil, or_false, not_or] at hnd
  rcases inv.freeStep_eq hp with ⟨h0, he⟩ | ⟨h0, h1, he⟩ | ⟨h0, h1, -, he⟩
  · rw [he] at h
    cases h
    have hheld : (s.pc p).held = i :: (Pc.freeing r r.i1).held := by
      rw [hp, h0]
      simp [Pc.held, Rq.idx, Ne.symm hnd.1.1]
    have hfreed : Inv { s.goto p (.freeing r r.i1) with lock := s.lock, disk := s.disk.give i } :=
      inv.freed hp hheld (Or.inr ⟨_, rfl, by simp [Rq.idx]⟩) (fun _ => hl)
    exact hfreed
  · rw [he] at h
    cases h
    have hheld : (s.pc p).held = i :: (Pc.freeing r r.i2).held := by
      rw [hp, h1]
      simp [Pc.held, Ne.symm hnd.1.1, Ne.symm hnd.1.2, Ne.symm hnd.2.1]
    have hfreed : Inv { s.goto p (.freeing r r.i2) with lock := s.lock, disk := s.disk.give i } :=
      inv.freed hp hheld (Or.inr ⟨_, rfl, by simp [Rq.idx]⟩) (fun _ => hl)
    exact hfreed
  · rw [he] at h
    cases h
    have hi2 : i = r.i2 := by
      have := (inv.good p).place r i hp
      simpa [Rq.idx, h0, h1] using this
    have hheld : (s.pc p).held = i :: (Pc.idle : Pc B).held := by
      rw [hp]
      simp only [Pc.held]
      rw [if_neg h0, if_neg h1, hi2]
    exact inv.freed hp hheld (Or.inl rfl) (fun h => by cases h)

theorem run (inv : Inv s) (h : s.run p = .ok t) : Inv t := by
  unfold Sys.run at h
  split at h
  · cases h
  · rename_i hp
    exact inv.allocStep hp h
  · rename_i hp
    exact inv.starved hp h
  · rename_i hp
    cases h
    exact inv.formatStep hp
  · rename_i hp
    cases h
    exact inv.ringStep hp
  · rename_i hp
    cases h
    exact inv.publishStep hp
  · rename_i hp
    split at h
    · cases h
      exact inv.sleeping hp
    · rename_i hd
      cases h
      exact inv.waited hp (by simpa using hd)
  · rename_i hp
    exact inv.awake hp h
  · rename_i hp
    cases h
    exact inv.clearStep hp
  · rename_i hp
    exact inv.freeStep hp h

end Inv

/-- A step outside `virtio_disk_rw` that changes the owner of a buffer, or what a buffer contains. -/
structure Outer (s t : Sys P B D) : Prop where
  pc : t.pc = s.pc
  lock : t.lock = s.lock ∨ ∀ q, (s.pc q).inside = false
  disk : t.disk = s.disk
  served : t.served = s.served
  rings : t.seen = s.seen ∧ t.offered = s.offered ∧ t.taken = s.taken ∧ t.returned = s.returned ∧
    t.handled = s.handled ∧ t.pending = s.pending
  -- buffers in use stay as they are
  buf : ∀ q b, (s.pc q).buf = some b → t.owner b = s.owner b ∧ SameBuf (t.buf b) (s.buf b)

theorem Outer.inv (h : Outer s t) (inv : Inv s) : Inv t := by
  obtain ⟨hseen, hoff, htak, hret, hhan, hpen⟩ := h.rings
  have hfin : t.finished = s.finished := by rw [Sys.finished, Sys.finished, hret, hhan]
  have hout : t.out = s.out := by rw [Sys.out, Sys.out, Sys.queue, Sys.queue, hoff, htak, hpen, hfin]
  refine ⟨fun q => ?_, ?_, ?_, ?_, ?_, hout ▸ inv.nodup, fun x => ?_, fun x q r hx hs hi => ?_⟩
  · refine (inv.good q).frame (congrFun h.pc q) (fun hin => ?_) (h.buf q) (fun i _ => by rw [h.disk]; exact ⟨rfl, rfl⟩)
      (fun i _ => by rw [h.disk]; exact ⟨rfl, rfl⟩) (fun _ _ => by rw [h.served]) (fun _ _ => by rw [h.disk])
    rcases h.lock with hl | hl
    · exact hl
    · rw [hl q] at hin
      cases hin
  · rw [h.pc]
    exact inv.excl
  · rw [h.pc, h.disk]
    exact inv.cover
  · rw [h.disk, hseen, hoff, htak]
    exact inv.avail
  · rw [h.disk, hret, hhan]
    exact inv.used
  · rw [hout, h.pc]
    refine (inv.out x).trans ⟨?_, ?_⟩ <;> rintro ⟨q, r, hs, hi, hd⟩ <;> refine ⟨q, r, hs, hi, ?_⟩
    · exact (h.buf q r.b (Pc.buf_of_sent hs)).2.2.trans hd
    · exact (h.buf q r.b (Pc.buf_of_sent hs)).2.2.symm.trans hd
  · rw [hpen, hfin] at hx
    rw [h.pc] at hs
    rw [h.disk, h.served, Sys.want, (h.buf q r.b (Pc.buf_of_sent hs)).2.1]
    exact inv.done x q r hx hs hi

namespace Inv

theorem acquiresleep (inv : Inv s) {blockno : UInt32} (h : s.acquiresleep p b blockno = .ok t) : Inv t := by
  unfold Sys.acquiresleep at h
  split at h
  · rename_i hp
    cases h
    refine Outer.inv (s := s) ⟨rfl, Or.inl rfl, rfl, rfl, ⟨rfl, rfl, rfl, rfl, rfl, rfl⟩, fun q b' hb => ?_⟩ inv
    -- a buffer in use has an owner
    have hne : b' ≠ b := fun he => by
      have := (inv.good q).owner b' hb
      rw [he, hp.2] at this
      cases this
    have hbuf : (Function.update s.buf b { s.buf b with blockno }) b' = s.buf b' := Function.update_of_ne hne ..
    refine ⟨Function.update_of_ne hne .., ?_⟩
    change SameBuf ((Function.update s.buf b { s.buf b with blockno }) b') _
    rw [hbuf]
    exact ⟨rfl, rfl⟩
  · cases h

theorem releasesleep (inv : Inv s) (h : s.releasesleep p b = .ok t) : Inv t := by
  unfold Sys.releasesleep at h
  split at h
  · rename_i hp
    cases h
    refine Outer.inv (s := s) ⟨rfl, Or.inl rfl, rfl, rfl, ⟨rfl, rfl, rfl, rfl, rfl, rfl⟩, fun q b' hb => ?_⟩ inv
    have hne : b' ≠ b := fun he => by
      have := (inv.good q).owner b' hb
      rw [he, hp.2] at this
      obtain rfl := Option.some.inj this
      rw [hp.1] at hb
      cases hb
    exact ⟨Function.update_of_ne hne .., rfl, rfl⟩
  · cases h

theorem modify (inv : Inv s) {data : D} (h : s.modify p b data = .ok t) : Inv t := by
  unfold Sys.modify at h
  split at h
  · cases h
    refine Outer.inv (s := s) ⟨rfl, Or.inl rfl, rfl, rfl, ⟨rfl, rfl, rfl, rfl, rfl, rfl⟩, fun q b' hb => ⟨rfl, ?_⟩⟩ inv
    change SameBuf ((Function.update s.buf b { s.buf b with data }) b') _
    rw [Function.update_apply]
    split
    · rename_i he
      rw [he]
      exact ⟨rfl, rfl⟩
    · exact ⟨rfl, rfl⟩
  · cases h

theorem intr (inv : Inv s) (h : s.intr = .ok t) : Inv t := by
  unfold Sys.intr at h
  split at h
  · rename_i hl
    cases h
    exact Outer.inv (s := s) ⟨rfl, Or.inr fun q => inv.outside_of_free (Or.inl hl), rfl, rfl, ⟨rfl, rfl, rfl, rfl, rfl, rfl⟩,
      fun _ _ _ => ⟨rfl, rfl, rfl⟩⟩ inv
  · cases h

end Inv

end Xv6.Virtio
