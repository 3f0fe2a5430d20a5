import Xv6.Virtio.Steps

/-! The device and the interrupt handler, and the protocol as a whole. -/

set_option linter.unusedSectionVars false

namespace Xv6.Virtio
open Lib

variable {P B D : Type} [DecidableEq P] [DecidableEq B] {s t : Sys P B D} {p q : P} {r : Rq B} {b : B}

namespace Inv

theorem look_not_out (inv : Inv s)
    (h : (s.pc q).sent = some r ∧ (s.buf r.b).disk = false ∨ s.pc q = .clear r) : r.i0 ∉ s.out := by
  rcases h with ⟨hs, hd⟩ | hc
  · intro hout
    obtain ⟨p, r', hs', hi, hd'⟩ := inv.sender hout
    obtain rfl := inv.excl p q r.i0 (hi ▸ Pc.i0_held_of_sent hs') (Pc.i0_held_of_sent hs)
    obtain rfl := Option.some.inj (hs'.symm.trans hs)
    rw [hd] at hd'
    cases hd'
  · exact inv.not_out (by rw [hc]; exact r.i0_mem) (by rw [hc]; rfl)

theorem sent_inj (inv : Inv s) {r' : Rq B} (h : (s.pc p).sent = some r) (h' : (s.pc q).sent = some r')
    (hi : r.i0 = r'.i0) : p = q ∧ r = r' := by
  obtain rfl := inv.excl p q r.i0 (Pc.i0_held_of_sent h) (hi ▸ Pc.i0_held_of_sent h')
  exact ⟨rfl, Option.some.inj (h.symm.trans h')⟩

theorem mem_out_of_pending {h : Nat} {x : Bool} (hh : (h, x) ∈ s.pending) : h ∈ s.out :=
  List.mem_append_left _ (List.mem_append_right _ (List.mem_map.mpr ⟨_, hh, rfl⟩))

theorem mem_out_of_finished {h : Nat} (hh : h ∈ s.finished) : h ∈ s.out := List.mem_append_right _ hh

end Inv

/-! ### The device -/

/-- A step of the device: it moves data and heads and writes the status of what it works on. -/
structure Device (s t : Sys P B D) : Prop where
  pc : t.pc = s.pc
  lock : t.lock = s.lock
  owner : t.owner = s.owner
  buf : ∀ b, SameBuf (t.buf b) (s.buf b)
  desc : t.disk.desc = s.disk.desc
  free : t.disk.free = s.disk.free
  ops : t.disk.ops = s.disk.ops
  info : ∀ i, (t.disk.info i).b = (s.disk.info i).b
  avail : t.disk.avail = s.disk.avail ∧ t.disk.availIdx = s.disk.availIdx
  served : ∀ h, h ∉ s.out → t.served h = s.served h
  out : t.out.Perm s.out

theorem Device.inv (h : Device s t) (inv : Inv s)
    (havail : Ring M t.disk.avail t.seen.toNat t.disk.availIdx.toNat t.offered t.taken)
    (hused : Ring M t.disk.used t.disk.usedIdx.toNat t.disk.deviceIdx.toNat t.returned t.handled)
    (hdone : ∀ h p r, (h, true) ∈ t.pending ∨ h ∈ t.finished → (s.pc p).sent = some r → r.i0 = h →
      (t.disk.info h).status = 0 ∧ t.served h = some (s.want r)) : Inv t where
  good q := by
    refine (inv.good q).frame (congrFun h.pc q) (fun _ => h.lock) (fun b _ => ⟨congrFun h.owner b, h.buf b⟩)
      (fun i _ => ⟨congrFun h.desc i, congrFun h.free i⟩) (fun i _ => ⟨congrFun h.ops i, h.info i⟩)
      (fun r hr => h.served _ (inv.look_not_out hr)) (fun _ _ => by rw [h.avail.1, h.avail.2])
  excl := by
    rw [h.pc]
    exact inv.excl
  cover := by
    rw [h.pc, h.free]
    exact inv.cover
  avail := havail
  used := hused
  nodup := h.out.nodup_iff.mpr inv.nodup
  out x := by
    rw [h.out.mem_iff, h.pc]
    refine (inv.out x).trans ⟨?_, ?_⟩ <;> rintro ⟨q, r, hs, hi, hd⟩ <;> refine ⟨q, r, hs, hi, ?_⟩
    · exact (h.buf r.b).2.trans hd
    · exact (h.buf r.b).2.symm.trans hd
  done x q r hx hs hi := by
    rw [h.pc] at hs
    rw [Sys.want, (h.buf r.b).1]
    exact hdone x q r hx hs hi

namespace Inv

theorem consume (inv : Inv s) (h : s.consume = .ok t) : Inv t := by
  unfold Sys.consume at h
  split at h
  · cases h
  rename_i hne
  cases h
  have hne' : s.seen.toNat ≠ s.disk.availIdx.toNat := fun he => hne (UInt16.toNat_inj.mp he)
  have hcons := inv.avail.drop_eq_cons (by decide) (by decide) hne'
  have hpop := inv.avail.pop (by decide) (by decide) hne'
  generalize s.disk.avail (Fin.ofNat NUM s.seen.toNat) = h at hcons hpop
  refine Device.inv (s := s) ⟨rfl, rfl, rfl, fun _ => ⟨rfl, rfl⟩, rfl, rfl, rfl, fun _ => rfl, ⟨rfl, rfl⟩,
    fun _ _ => rfl, ?_⟩ inv ?_ inv.used ?_
  · -- the head goes from the ring to the device
    change ((s.offered.drop (s.taken ++ [h]).length) ++ (s.pending ++ [(h, false)]).map Prod.fst ++ s.finished).Perm _
    rw [Sys.out, Sys.queue, hcons, List.length_append, List.length_singleton, List.map_append, List.map_singleton]
    refine List.Perm.append_right _ ?_
    rw [← List.append_assoc]
    exact List.perm_append_singleton _ _
  · change Ring M s.disk.avail (s.seen + 1).toNat s.disk.availIdx.toNat s.offered (s.taken ++ [h])
    rw [toNat_succ]
    exact hpop
  · intro x q r hx hs hi
    refine inv.done x q r (hx.imp_left fun hx => ?_) hs hi
    rcases List.mem_append.mp hx with hx | hx
    · exact hx
    · simp at hx

theorem describe (inv : Inv s) (hs : (s.pc p).sent = some r) :
    s.disk.describe r.i0 = some (s.want r, r.i0) := by
  have hg := inv.good p
  have harm := Pc.armed_of_sent hs
  have hheld := Pc.held_of_armed harm
  have hfmt := Pc.formatted_of_armed harm
  have hnd := hg.idx r hfmt
  simp only [Rq.idx, List.nodup_cons, List.mem_cons, List.not_mem_nil, or_false, not_or] at hnd
  obtain ⟨⟨h01, h02⟩, h12, -⟩ := hnd
  have hd : ∀ i ∈ r.idx, s.disk.desc i = r.desc i := fun i hi => hg.chain r hfmt i (hheld ▸ hi)
  have hd0 := hd r.i0 (by simp [Rq.idx])
  have hd1 := hd r.i1 (by simp [Rq.idx])
  have hd2 := hd r.i2 (by simp [Rq.idx])
  simp only [Rq.desc, if_pos, if_neg (Ne.symm h01), if_neg (Ne.symm h02), if_neg (Ne.symm h12)] at hd0 hd1 hd2
  simp [Disk.describe, hd0, hd1, hd2, (hg.header r harm).1, Sys.want]

theorem move_buf (x : Transfer B) (b : B) : SameBuf ((s.move x).buf b) (s.buf b) := by
  unfold Sys.move
  split
  · exact ⟨rfl, rfl⟩
  · change SameBuf (Function.update s.buf x.b { s.buf x.b with data := s.sectors x.sector } b) _
    rw [Function.update_apply]
    split
    · rename_i he
      rw [he]
      exact ⟨rfl, rfl⟩
    · exact ⟨rfl, rfl⟩

theorem move_eq (x : Transfer B) :
    s.move x = { s with buf := (s.move x).buf, sectors := (s.move x).sectors } := by
  unfold Sys.move
  split <;> rfl

theorem set_map_fst {l : List (Nat × Bool)} {k h : Nat} {x y : Bool} (hk : l[k]? = some (h, x)) :
    (l.set k (h, y)).map Prod.fst = l.map Prod.fst := by
  induction l generalizing k with
  | nil => simp at hk
  | cons a l ih =>
    cases k with
    | zero =>
      obtain rfl : a = (h, x) := by simpa using hk
      rfl
    | succ k =>
      have hk : l[k]? = some (h, x) := by simpa using hk
      rw [List.set_cons_succ, List.map_cons, List.map_cons, ih hk]

theorem perform (inv : Inv s) {k : Nat} (h : s.perform k = .ok t) : Inv t := by
  unfold Sys.perform at h
  split at h
  case h_2 => cases h
  rename_i h0 hk
  have hmem : (h0, false) ∈ s.pending := List.mem_of_getElem? hk
  obtain ⟨p, r, hs, rfl, -⟩ := inv.sender (mem_out_of_pending hmem)
  simp only [inv.describe hs, Except.ok.injEq] at h
  subst h
  have hinfo : ∀ i, i ≠ r.i0 → Function.update s.disk.info r.i0 { s.disk.info r.i0 with status := 0 } i = s.disk.info i :=
    fun i hi => Function.update_of_ne hi ..
  refine Device.inv (s := s) ⟨?_, ?_, ?_, move_buf (s.want r), rfl, rfl, rfl, fun i => ?_, ⟨rfl, rfl⟩, fun x hx => ?_, ?_⟩
    inv ?_ ?_ ?_
  · change (s.move (s.want r)).pc = s.pc
    rw [move_eq]
  · change (s.move (s.want r)).lock = s.lock
    rw [move_eq]
  · change (s.move (s.want r)).owner = s.owner
    rw [move_eq]
  · change (Function.update s.disk.info r.i0 { s.disk.info r.i0 with status := 0 } i).b = _
    by_cases hi : i = r.i0
    · rw [hi, Function.update_self]
    · rw [hinfo i hi]
  · have hne : x ≠ r.i0 := fun he => hx (he ▸ mem_out_of_pending hmem)
    exact Function.update_of_ne hne ..
  · change ((s.move (s.want r)).offered.drop (s.move (s.want r)).taken.length ++ (s.pending.set k (r.i0, true)).map Prod.fst ++
      (s.move (s.want r)).returned.drop (s.move (s.want r)).handled.length).Perm _
    rw [set_map_fst hk, move_eq]
    exact List.Perm.refl _
  · change Ring M s.disk.avail (s.move (s.want r)).seen.toNat s.disk.availIdx.toNat (s.move (s.want r)).offered
      (s.move (s.want r)).taken
    rw [move_eq]
    exact inv.avail
  · change Ring M s.disk.used s.disk.usedIdx.toNat s.disk.deviceIdx.toNat (s.move (s.want r)).returned
      (s.move (s.want r)).handled
    rw [move_eq]
    exact inv.used
  · intro x q r' hx hs' hi
    change (Function.update s.disk.info r.i0 { s.disk.info r.i0 with status := 0 } x).status = 0 ∧
      Function.update s.served r.i0 (some (s.want r)) x = _
    by_cases hxr : x = r.i0
    · obtain ⟨-, rfl⟩ := inv.sent_inj hs hs' (hxr.symm.trans hi.symm)
      rw [hxr, Function.update_self, Function.update_self]
      exact ⟨rfl, rfl⟩
    · rw [hinfo x hxr, Function.update_of_ne hxr]
      refine inv.done x q r' ?_ hs' hi
      rcases hx with hx | hx
      · rcases List.mem_or_eq_of_mem_set hx with hx | hx
        · exact Or.inl hx
        · exact absurd (congrArg Prod.fst hx) hxr
      · change x ∈ (s.move (s.want r)).returned.drop (s.move (s.want r)).handled.length at hx
        rw [move_eq] at hx
        exact Or.inr hx

theorem complete (inv : Inv s) {k : Nat} (h : s.complete k = .ok t) : Inv t := by
  unfold Sys.complete at h
  split at h
  case h_2 => cases h
  rename_i h0 hk
  cases h
  obtain ⟨hlt, hget⟩ := List.getElem?_eq_some_iff.mp hk
  have hmem : (h0, true) ∈ s.pending := List.mem_of_getElem? hk
  have hperm : ((h0, true) :: s.pending.eraseIdx k).Perm s.pending := by
    rw [← hget]
    exact List.getElem_cons_eraseIdx_perm hlt
  have hfin : (s.returned ++ [h0]).drop s.handled.length = s.finished ++ [h0] :=
    drop_append inv.used.fifo.length_le _
  refine Device.inv (s := s) ⟨rfl, rfl, rfl, fun _ => ⟨rfl, rfl⟩, rfl, rfl, rfl, fun _ => rfl, ⟨rfl, rfl⟩,
    fun _ _ => rfl, ?_⟩ inv inv.avail ?_ ?_
  · -- the head goes from the device to the ring
    change (s.queue ++ (s.pending.eraseIdx k).map Prod.fst ++ (s.returned ++ [h0]).drop s.handled.length).Perm _
    rw [hfin, Sys.out, List.append_assoc, List.append_assoc]
    refine List.Perm.append_left _ ?_
    have hmap : (h0 :: (s.pending.eraseIdx k).map Prod.fst).Perm (s.pending.map Prod.fst) := hperm.map Prod.fst
    refine (List.Perm.append_left _ (List.perm_append_singleton h0 s.finished)).trans ?_
    exact List.perm_middle.trans (hmap.append_right _)
  · change Ring M (Function.update s.disk.used (Fin.ofNat NUM s.disk.deviceIdx.toNat) h0) s.disk.usedIdx.toNat
      (s.disk.deviceIdx + 1).toNat (s.returned ++ [h0]) s.handled
    rw [toNat_succ]
    exact inv.used.push (by decide) (by decide) (not_full inv.used (inv.used_room hmem)) h0
  · intro x q r hx hs hi
    refine inv.done x q r ?_ hs hi
    rcases hx with hx | hx
    · exact Or.inl (List.mem_of_mem_eraseIdx hx)
    · change x ∈ (s.returned ++ [h0]).drop s.handled.length at hx
      rw [hfin] at hx
      rcases List.mem_append.mp hx with hx | hx
      · exact Or.inr hx
      · rw [List.mem_singleton.mp hx]
        exact Or.inl hmem

theorem next_used (inv : Inv s) (hne : s.disk.usedIdx ≠ s.disk.deviceIdx) :
    s.finished = s.nextUsed :: s.returned.drop (s.handled.length + 1) ∧
    ∃ p r, (s.pc p).sent = some r ∧ r.i0 = s.nextUsed ∧ (s.buf r.b).disk = true ∧ s.nextUsed < NUM ∧
      (s.disk.info s.nextUsed).b = some r.b ∧ (s.disk.info s.nextUsed).status = 0 ∧
      s.served s.nextUsed = some (s.want r) := by
  have hne' : s.disk.usedIdx.toNat ≠ s.disk.deviceIdx.toNat := fun he => hne (UInt16.toNat_inj.mp he)
  have hcons : s.finished = s.nextUsed :: s.returned.drop (s.handled.length + 1) :=
    inv.used.drop_eq_cons (by decide) (by decide) hne'
  have hfin : s.nextUsed ∈ s.finished := by
    rw [hcons]
    exact List.mem_cons_self
  have hout := mem_out_of_finished hfin
  obtain ⟨p, r, hs, hi, hd⟩ := inv.sender hout
  obtain ⟨hst, hsv⟩ := inv.done _ p r (Or.inr hfin) hs hi
  refine ⟨hcons, p, r, hs, hi, hd, inv.out_lt hout, ?_, hst, hsv⟩
  rw [← hi]
  exact ((inv.good p).header r (Pc.armed_of_sent hs)).2

theorem handled1 (inv : Inv s) (hne : s.disk.usedIdx ≠ s.disk.deviceIdx) (hs : (s.pc p).sent = some r)
    (hi : r.i0 = s.nextUsed) (hsv : s.served s.nextUsed = some (s.want r)) : Inv (s.handled1 s.nextUsed r.b) := by
  obtain ⟨hcons, -⟩ := inv.next_used hne
  have hself : (s.handled1 s.nextUsed r.b).buf r.b = { s.buf r.b with disk := false } := Function.update_self ..
  have hbuf : ∀ b, b ≠ r.b → (s.handled1 s.nextUsed r.b).buf b = s.buf b := fun b hb => Function.update_of_ne hb ..
  have hsec : ∀ b, ((s.handled1 s.nextUsed r.b).buf b).sector = (s.buf b).sector := by
    intro b
    by_cases hb : b = r.b
    · rw [hb, hself]
      rfl
    · rw [hbuf b hb]
  have hother : ∀ {q b}, q ≠ p → (s.pc q).buf = some b → b ≠ r.b := fun {q b} hq hb he =>
    hq (inv.buf_inj (he ▸ hb) (Pc.buf_of_sent hs))
  have hfin : (s.handled1 s.nextUsed r.b).finished = s.returned.drop (s.handled.length + 1) := by
    change s.returned.drop (s.handled ++ [s.nextUsed]).length = _
    rw [List.length_append, List.length_singleton]
  have hperm : s.out.Perm (s.nextUsed :: (s.handled1 s.nextUsed r.b).out) := by
    rw [Sys.out, hcons]
    change List.Perm _ (s.nextUsed :: (s.queue ++ s.pending.map Prod.fst ++ (s.handled1 s.nextUsed r.b).finished))
    rw [hfin]
    exact List.perm_middle
  have hnd := List.nodup_cons.mp (hperm.nodup_iff.mp inv.nodup)
  refine ⟨fun q => ?_, inv.excl, inv.cover, inv.avail, ?_, hnd.2, fun x => ?_, fun x q r' hx hs' hi' => ?_⟩
  · by_cases hq : q = p
    · subst hq
      have hg := inv.good q
      have harm := Pc.armed_of_sent hs
      refine ⟨hg.lock, hg.owner, hg.idx, hg.nodup, hg.held, hg.chain, fun r' hr' => ?_, fun r' hr' => ?_, hg.slot,
        fun r' hr' => ?_, hg.place⟩
      · rw [hsec]
        exact hg.header r' hr'
      · change s.pc q = _ ∨ s.pc q = _ at hr'
        rcases hr' with hr' | hr' <;> (rw [hr'] at hs; cases hs)
      · -- what the device has performed is what the process wants
        have hr : r' = r := by
          rcases hr' with ⟨hr', -⟩ | hr'
          · exact Option.some.inj (hr'.symm.trans hs)
          · change s.pc q = _ at hr'
            rw [hr'] at hs
            cases hs
        rw [hr, Sys.want, hsec]
        exact hi ▸ hsv
    · refine (inv.good q).frame rfl (fun _ => rfl) (fun b hb => ⟨rfl, ?_⟩) (fun _ _ => ⟨rfl, rfl⟩) (fun _ _ => ⟨rfl, rfl⟩)
        (fun _ _ => rfl) (fun _ _ => rfl)
      rw [hbuf b (hother hq hb)]
      exact ⟨rfl, rfl⟩
  · have hne' : s.disk.usedIdx.toNat ≠ s.disk.deviceIdx.toNat := fun he => hne (UInt16.toNat_inj.mp he)
    change Ring M s.disk.used (s.disk.usedIdx + 1).toNat s.disk.deviceIdx.toNat s.returned (s.handled ++ [s.nextUsed])
    rw [toNat_succ]
    exact inv.used.pop (by decide) (by decide) hne'
  · constructor
    · intro hx
      obtain ⟨q, r', hs', hi', hd'⟩ := inv.sender (hperm.mem_iff.mpr (List.mem_cons_of_mem _ hx))
      have hq : q ≠ p := fun he => by
        subst he
        obtain rfl := Option.some.inj (hs'.symm.trans hs)
        obtain rfl : x = s.nextUsed := hi'.symm.trans hi
        exact hnd.1 hx
      refine ⟨q, r', hs', hi', ?_⟩
      rw [hbuf _ (hother hq (Pc.buf_of_sent hs'))]
      exact hd'
    · rintro ⟨q, r', hs', hi', hd'⟩
      have hq : q ≠ p := fun he => by
        subst he
        obtain rfl := Option.some.inj (hs'.symm.trans hs)
        rw [hself] at hd'
        cases hd'
      rw [hbuf _ (hother hq (Pc.buf_of_sent hs'))] at hd'
      have hx : x ∈ s.out := (inv.out x).mpr ⟨q, r', hs', hi', hd'⟩
      refine (List.mem_cons.mp (hperm.mem_iff.mp hx)).resolve_left fun he => hq ?_
      exact (inv.sent_inj hs' hs (hi'.trans (he.trans hi.symm))).1
  · rw [hfin] at hx
    rw [Sys.want, hsec]
    refine inv.done x q r' (hx.imp_right fun hx => ?_) hs' hi'
    rw [hcons]
    exact List.mem_cons_of_mem _ hx

theorem handle (inv : Inv s) (h : s.handle = .ok t) : Inv t := by
  unfold Sys.handle at h
  split at h
  · cases h
  rename_i hl
  split at h
  · cases h
    exact Outer.inv (s := s) ⟨rfl, Or.inr fun q => inv.outside_of_free (Or.inr (not_not.mp hl)), rfl, rfl,
      ⟨rfl, rfl, rfl, rfl, rfl, rfl⟩, fun _ _ _ => ⟨rfl, rfl, rfl⟩⟩ inv
  rename_i hne
  obtain ⟨-, p, r, hs, hi, -, hlt, hb, hst, hsv⟩ := inv.next_used hne
  rw [if_neg (by omega), if_neg (by simp [hst])] at h
  simp only [hb, Except.ok.injEq] at h
  subst h
  exact inv.handled1 hne hs hi hsv

theorem step (inv : Inv s) {a : Action P B D} (h : Virtio.step s a = .ok t) : Inv t := by
  cases a with
  | acquiresleep p b blockno => exact inv.acquiresleep h
  | releasesleep p b => exact inv.releasesleep h
  | modify p b data => exact inv.modify h
  | rw p b write => exact inv.rw h
  | run p => exact inv.run h
  | intr => exact inv.intr h
  | handle => exact inv.handle h
  | consume => exact inv.consume h
  | perform k => exact inv.perform h
  | complete k => exact inv.complete h

end Inv

/-! ### No panic -/

namespace Inv

theorem acquireAt_error {pc : Pc B} {e : Refusal} (h : s.acquireAt p pc = .error e) : e = .disabled := by
  unfold Sys.acquireAt at h
  split at h
  · cases h
  · cases h
    rfl

theorem allocStep_ok {write : Bool} : ∃ t, s.allocStep p b write = .ok t := by
  rcases s.disk.alloc3Desc_cases with ⟨i0, i1, i2, -, -, he⟩ | ⟨k', he, -⟩
  · exact ⟨_, by simp [Sys.allocStep, he, bind, Except.bind]; rfl⟩
  · exact ⟨_, by simp [Sys.allocStep, he, bind, Except.bind]; rfl⟩

theorem run_error (inv : Inv s) {e : Refusal} (h : s.run p = .error e) : e = .disabled := by
  unfold Sys.run at h
  split at h
  · cases h
    rfl
  · rename_i b write _
    obtain ⟨t, ht⟩ : ∃ t, s.allocStep p b write = .ok t := allocStep_ok
    rw [ht] at h
    cases h
  · exact acquireAt_error h
  · cases h
  · cases h
  · cases h
  · split at h <;> cases h
  · exact acquireAt_error h
  · cases h
  · rename_i hp
    rcases inv.freeStep_eq hp with ⟨-, he⟩ | ⟨-, -, he⟩ | ⟨-, -, -, he⟩ <;> (rw [he] at h; cases h)

theorem handle_error (inv : Inv s) {e : Refusal} (h : s.handle = .error e) : e = .disabled := by
  unfold Sys.handle at h
  split at h
  · cases h
    rfl
  split at h
  · cases h
  rename_i hne
  obtain ⟨-, p, r, -, -, -, hlt, hb, hst, -⟩ := inv.next_used hne
  rw [if_neg (by omega), if_neg (by simp [hst])] at h
  simp [hb] at h

theorem perform_error (inv : Inv s) {k : Nat} {e : Refusal} (h : s.perform k = .error e) : e = .disabled := by
  unfold Sys.perform at h
  split at h
  · rename_i h0 hk
    obtain ⟨p, r, hs, rfl, -⟩ := inv.sender (mem_out_of_pending (List.mem_of_getElem? hk))
    simp [inv.describe hs] at h
  · cases h
    rfl

theorem step_error (inv : Inv s) {a : Action P B D} {e : Refusal} (h : Virtio.step s a = .error e) :
    e = .disabled := by
  cases a with
  | acquiresleep p b blockno =>
    simp only [Virtio.step, Sys.acquiresleep] at h
    split at h <;> cases h
    rfl
  | releasesleep p b =>
    simp only [Virtio.step, Sys.releasesleep] at h
    split at h <;> cases h
    rfl
  | modify p b data =>
    simp only [Virtio.step, Sys.modify] at h
    split at h <;> cases h
    rfl
  | rw p b write =>
    simp only [Virtio.step, Sys.rw] at h
    split at h
    · exact acquireAt_error h
    · cases h
      rfl
  | run p => exact inv.run_error h
  | intr =>
    simp only [Virtio.step, Sys.intr] at h
    split at h <;> cases h
    rfl
  | handle => exact inv.handle_error h
  | consume =>
    simp only [Virtio.step, Sys.consume] at h
    split at h <;> cases h
    rfl
  | perform k => exact inv.perform_error h
  | complete k =>
    simp only [Virtio.step, Sys.complete] at h
    split at h <;> cases h
    rfl

theorem slot_free (inv : Inv s) (hp : s.pc p = .ring r) {k : Nat} (hk : k < s.queue.length) :
    (s.seen.toNat + k) % NUM ≠ s.disk.availIdx.toNat % NUM := by
  have hi0 : r.i0 ∈ (s.pc p).held := by rw [hp]; exact r.i0_mem
  have hroom := inv.avail_room ((inv.good p).held _ hi0).1 (inv.not_out hi0 (by rw [hp]; rfl))
  have hlen : s.queue.length = s.offered.length - s.taken.length := List.length_drop
  have hle := inv.avail.fifo.length_le
  rw [inv.avail.read, inv.avail.write, Nat.mod_mod_of_dvd _ (by decide : NUM ∣ M)]
  have hmod : (s.taken.length % M + k) % NUM = (s.taken.length + k) % NUM := by
    rw [Nat.add_mod, Nat.mod_mod_of_dvd _ (by decide : NUM ∣ M), ← Nat.add_mod]
  rw [hmod]
  unfold NUM at hroom ⊢
  omega

end Inv

/-- A descriptor is free or belongs to one process; what a request has written stays until it has completed; a slot of
    the avail ring is written only after the device has read it; a completion clears `b->disk` of its buffer, after
    the transfer; a process leaves its waiting loop only after that; and no panic is reached. -/
theorem request_protocol (h : Reach Init step (fun _ _ => True) s) :
    (∀ i, i < NUM → (s.disk.free i = true ∧ ∀ p, i ∉ (s.pc p).held) ∨
      (s.disk.free i = false ∧ ∃! p, i ∈ (s.pc p).held)) ∧
    (∀ p r, (s.pc p).armed = some r → (s.pc p).held = r.idx ∧ r.idx.Nodup ∧
      (∀ i ∈ r.idx, i < NUM ∧ s.disk.desc i = r.desc i) ∧
      s.disk.ops r.i0 = { type := r.write, sector := (s.buf r.b).sector } ∧ (s.disk.info r.i0).b = some r.b) ∧
    (∀ p r, s.pc p = .ring r → ∀ k, k < s.queue.length → (s.seen.toNat + k) % NUM ≠ s.disk.availIdx.toNat % NUM) ∧
    (s.lock = some .intr → s.disk.usedIdx ≠ s.disk.deviceIdx →
      ∃ p r, (s.pc p).sent = some r ∧ r.i0 = s.nextUsed ∧ (s.disk.info s.nextUsed).b = some r.b ∧
        (s.buf r.b).disk = true ∧ s.served r.i0 = some (s.want r) ∧
        step s .handle = .ok (s.handled1 s.nextUsed r.b)) ∧
    (∀ p r, s.pc p = .clear r → s.served r.i0 = some (s.want r)) ∧
    (∀ k, s.disk.alloc3Desc = .ok (none, k) → k.free = s.disk.free) ∧
    ∀ a e, step s a = .error e → e = .disabled := by
  have inv : Inv s := h.invariant (fun _ => inv_init) (fun _ _ _ inv _ hs => inv.step hs)
  refine ⟨fun i hi => ?_, fun p r hr => ?_, fun p r hp k hk => inv.slot_free hp hk, fun hl hne => ?_,
    fun p r hp => (inv.good p).served r (Or.inr hp), fun k hk => ?_, fun a e => inv.step_error⟩
  · cases hf : s.disk.free i with
    | true =>
      refine Or.inl ⟨rfl, fun p hp => ?_⟩
      have := ((inv.good p).held i hp).2
      rw [hf] at this
      cases this
    | false =>
      obtain ⟨p, hp⟩ := inv.cover i hi hf
      exact Or.inr ⟨rfl, p, hp, fun q hq => inv.excl q p i hq hp⟩
  · have hheld := Pc.held_of_armed hr
    have hfmt := Pc.formatted_of_armed hr
    refine ⟨hheld, (inv.good p).idx r hfmt, fun i hi => ?_, (inv.good p).header r hr⟩
    rw [← hheld] at hi
    exact ⟨((inv.good p).held i hi).1, (inv.good p).chain r hfmt i hi⟩
  · obtain ⟨-, p, r, hs, hi, hd, hlt, hb, hst, hsv⟩ := inv.next_used hne
    refine ⟨p, r, hs, hi, hb, hd, hi ▸ hsv, ?_⟩
    simp only [step, Sys.handle]
    rw [if_neg (by simp [hl]), if_neg hne, if_neg (by omega), if_neg (by simp [hst])]
    simp only [hb]
  · rcases s.disk.alloc3Desc_cases with ⟨i0, i1, i2, -, -, he⟩ | ⟨k', he, hrest⟩
    · rw [he] at hk
      cases hk
    · rw [he] at hk
      cases hk
      exact hrest.free

def ready : Sys Bool Bool Nat where
  disk :=
    { desc := fun _ => { addr := .null, len := 0, flags := 0, next := 0 }, free := fun _ => true
      info := fun _ => { b := none, status := 0 }, ops := fun _ => { type := false, sector := 0 }
      avail := fun _ => 0, availIdx := 0, used := fun _ => 0, deviceIdx := 0, usedIdx := 0 }
  lock := none
  pc := fun _ => .idle
  buf := fun b => { disk := false, blockno := 0, data := if b then 1 else 2 }
  owner := fun _ => none
  seen := 0
  pending := []
  sectors := fun _ => 0
  offered := []
  taken := []
  returned := []
  handled := []
  served := fun _ => none

theorem init_ready : Init ready :=
  ⟨fun _ _ => rfl, ⟨rfl, rfl⟩, ⟨rfl, rfl⟩, rfl, fun _ => rfl, fun _ => rfl, rfl, rfl, rfl, rfl, rfl⟩

def overtaking : List (Action Bool Bool Nat) :=
  [.acquiresleep true true 5, .acquiresleep false false 6,
    .rw true true false, .run true, .run true, .run true, .run true, .run true,
    .rw false false true, .run false, .run false, .run false, .run false, .run false,
    .consume, .consume, .perform 1, .complete 1, .intr]

theorem request_protocol_overtaking : ∃ s : Sys Bool Bool Nat, Reach Init step (fun _ _ => True) s ∧
    s.nextUsed = 3 ∧ ∃ p r, (s.pc p).sent = some r ∧ r.i0 = 3 ∧ s.served r.i0 = some (s.want r) := by
  have hrun : (run step (fun _ _ => true) ready overtaking).any (fun s =>
      decide (s.nextUsed = 3 ∧ s.lock = some .intr ∧ s.disk.usedIdx ≠ s.disk.deviceIdx)) = true := by
    decide +kernel
  obtain ⟨s, hs, hat⟩ := (Option.any_eq_true _ _).mp hrun
  obtain ⟨h3, hl, hne⟩ : s.nextUsed = 3 ∧ s.lock = some .intr ∧ s.disk.usedIdx ≠ s.disk.deviceIdx :=
    of_decide_eq_true hat
  have hreach : Reach Init step (fun _ _ => True) s :=
    Reach.of_run (fun _ _ _ => trivial) overtaking (.init init_ready) hs
  obtain ⟨-, -, -, hcompletion, -⟩ := request_protocol hreach
  obtain ⟨p, r, hsent, hi, -, -, hsv, -⟩ := hcompletion hl hne
  exact ⟨s, hreach, h3, p, r, hsent, hi.trans h3, hsv⟩

/-- A head that is under way is in the avail ring, with the device or in the used ring, and can leave it. -/
theorem Inv.moves (inv : Inv s) {h : Nat} (hout : h ∈ s.out) :
    (∃ t, Virtio.step s .consume = .ok t) ∨ (∃ k t, Virtio.step s (.perform k) = .ok t) ∨
      (∃ k t, Virtio.step s (.complete k) = .ok t) ∨ s.disk.usedIdx ≠ s.disk.deviceIdx := by
  have unread : ∀ {ins outs : List Nat}, h ∈ ins.drop outs.length → outs.length ≠ ins.length := fun hm he => by
    rw [he, List.drop_length] at hm
    cases hm
  rcases List.mem_append.mp hout with hout | hfin
  · rcases List.mem_append.mp hout with hq | hpend
    · have hne : s.seen ≠ s.disk.availIdx := fun he =>
        unread hq ((inv.avail.empty_iff (by decide)).mp (congrArg UInt16.toNat he))
      exact Or.inl ⟨_, if_neg hne⟩
    · obtain ⟨⟨h', done⟩, hmem, rfl⟩ := List.mem_map.mp hpend
      obtain ⟨k, hk⟩ := List.mem_iff_getElem?.mp hmem
      obtain ⟨q, r, hs, hi, -⟩ := inv.sender (mem_out_of_pending hmem)
      cases done with
      | false => exact Or.inr (Or.inl ⟨k, _, by simp only [Virtio.step, Sys.perform, hk, ← hi, inv.describe hs]; rfl⟩)
      | true => exact Or.inr (Or.inr (Or.inl ⟨k, _, by simp only [Virtio.step, Sys.complete, hk]; rfl⟩))
  · refine Or.inr (Or.inr (Or.inr fun he => ?_))
    exact unread hfin ((inv.used.empty_iff (by decide)).mp (congrArg UInt16.toNat he))

/-- Somebody can go on: a process asleep on its buffer has been served, one that waits for descriptors finds three, or
    the device or the handler has work to do. -/
def Sys.Busy (s : Sys P B D) : Prop :=
  (∃ q r, s.pc q = .asleep r ∧ (s.buf r.b).disk = false) ∨
  (∃ q b write, s.pc q = .starved b write ∧ ∃ idx k, s.disk.alloc3Desc = .ok (some idx, k)) ∨
  (∃ t, step s .consume = .ok t) ∨ (∃ k t, step s (.perform k) = .ok t) ∨ (∃ k t, step s (.complete k) = .ok t) ∨
    s.disk.usedIdx ≠ s.disk.deviceIdx

/-- The driver and the device do not get stuck while calls are in progress and nobody holds `vdisk_lock`. -/
theorem request_not_stuck (h : Reach Init step (fun _ _ => True) s) (hlock : s.lock = none) (hp : s.pc p ≠ .idle) :
    s.Busy := by
  have inv : Inv s := h.invariant (fun _ => inv_init) (fun _ _ _ inv _ hs => inv.step hs)
  have outside : ∀ q, (s.pc q).inside = false := fun q => by
    by_contra hin
    have := (inv.good q).lock (by simpa using hin)
    rw [hlock] at this
    cases this
  by_cases hsleep : ∃ q r, s.pc q = .asleep r
  · obtain ⟨q, r, hq⟩ := hsleep
    cases hd : (s.buf r.b).disk with
    | false => exact Or.inl ⟨q, r, hq, hd⟩
    | true => exact Or.inr (Or.inr (inv.moves ((inv.out r.i0).mpr ⟨q, r, by rw [hq]; rfl, rfl, hd⟩)))
  · -- nobody has descriptors, so all are free
    have hheld : ∀ q, (s.pc q).held = [] := fun q => by
      have hout := outside q
      cases hq : s.pc q with
      | asleep r => exact absurd ⟨q, r, hq⟩ hsleep
      | _ => simp_all [Pc.inside, Pc.held]
    have hfree : ∀ i < NUM, s.disk.free i = true := fun i hi => by
      by_contra hf
      obtain ⟨q, hq⟩ := inv.cover i hi (by simpa using hf)
      rw [hheld q] at hq
      cases hq
    have hout := outside p
    cases hpc : s.pc p with
    | starved b write =>
      refine Or.inr (Or.inl ⟨p, b, write, hpc, (0, 1, 2), ((s.disk.take 0).take 1).take 2, ?_⟩)
      have hrange : List.range NUM = [0, 1, 2, 3, 4, 5, 6, 7] := rfl
      simp only [Disk.alloc3Desc, Disk.allocDesc, hrange, List.find?_cons, hfree 0 (by decide), Option.map_some, Disk.take,
        Function.update_self, ne_eq, one_ne_zero, not_false_eq_true, Function.update_of_ne, hfree 1 (by decide),
        OfNat.ofNat_ne_zero, OfNat.ofNat_ne_one, hfree 2 (by decide)]
      rfl
    | asleep r => exact absurd ⟨p, r, hpc⟩ hsleep
    | _ => simp_all [Pc.inside]

theorem request_not_stuck_published : ∃ s : Sys Bool Bool Nat, s.lock = none ∧ s.pc true ≠ .idle ∧ s.pc false ≠ .idle ∧
    s.Busy := by
  have hrun : (run step (fun _ _ => true) ready (overtaking.take 14)).any (fun s =>
      decide (s.lock = none ∧ s.pc true ≠ .idle ∧ s.pc false ≠ .idle)) = true := by decide +kernel
  obtain ⟨s, hs, hat⟩ := (Option.any_eq_true _ _).mp hrun
  obtain ⟨hl, h1, h2⟩ := of_decide_eq_true hat
  have hreach : Reach Init step (fun _ _ => True) s :=
    Reach.of_run (fun _ _ _ => trivial) (overtaking.take 14) (.init init_ready) hs
  exact ⟨s, hl, h1, h2, request_not_stuck hreach hl h1⟩

end Xv6.Virtio
