import Xv6.Bio.Invariant

/-! The buffer cache and the log together are a plain block store: every `bread` returns what was last stored. -/

namespace Xv6.Bio
open Lib

section
variable {P : Type} [Fintype P] [DecidableEq P] {s t : Sys P} {p : P} {i : Fin NBUF}

/-! ### Steps of `commit()` -/

omit [Fintype P] [DecidableEq P] in
theorem ownStore_ne {ph : Group.Phase} {n m : Nat} {x : Block} (h : m ≠ n) : ownStore s ph n x m = s.store m := by
  unfold ownStore
  split
  · rfl
  · exact Function.update_of_ne h ..

omit [DecidableEq P] in
theorem inv_put {ph : Group.Phase} {x : Block} (inv : Inv s) (hp : s.grp.pc p = .commit ph) (hidle : s.sub = .idle)
    (hu : (s.buf i).use p = .ready) (htarget : target s.grp.log ph = some (s.buf i).blockno)
    (hdata : x = ownStore s ph (s.buf i).blockno x (s.buf i).blockno)
    (hcopied : ∀ j < s.grp.log.lh.n, j < Phase.copied s.grp.log.lh.n true ph →
      ownStore s ph (s.buf i).blockno x (s.grp.log.start + j + 1) =
        ownStore s ph (s.buf i).blockno x (s.grp.log.lh.block j)) :
    Inv { s.set i ((s.buf i).put x) with sub := .filled i, store := ownStore s ph (s.buf i).blockno x } where
  grp := inv.grp
  lru := inv.lru
  buf := forall_set ((inv.buf i).regroup rfl rfl rfl rfl rfl (inv.buf i).dirty) fun j _ => inv.buf j
  content := by
    refine inv.content.store (i := i) (b := (s.buf i).put x) rfl rfl ((inv.buf i).keyed p (by simp [hu])) rfl rfl
      hdata id (fun _ => ownStore_ne) (fun _ _ => rfl) (Or.inr (Or.inr (Or.inr rfl))) fun j hj hd => ?_
    rcases hd with ⟨q, hq⟩ | hs
    · exact absurd hq (inv.not_dirty_of_commit hp j q)
    · rw [hidle] at hs; cases hs
  writing := {
    home := inv.writing.home
    fits := inv.writing.fits
    sub := fun j hw => by
      obtain rfl : i = j := by rcases hw with hw | hw <;> cases hw; rfl
      have hself := set_buf_self s i ((s.buf i).put x)
      exact ⟨p, ph, hp, (congrArg (·.use p) hself).trans hu, htarget.trans (congrArg (some ·.blockno) hself).symm⟩
    flushed := fun j hj => by cases hj
    copied := fun q ph' hq => by
      obtain rfl := inv.grp.commit_unique q p ph' ph hq hp
      cases (show s.grp.pc q = .commit ph' from hq).symm.trans hp
      exact hcopied }

omit [DecidableEq P] in
theorem Inv.block_ne (inv : Inv s) {j k : Nat} (hj : j < s.grp.log.lh.n) (hk : k ≤ s.grp.log.lh.n) :
    s.grp.log.lh.block j ≠ s.grp.log.start + k := by
  intro he
  have hout := inv.writing.home _ (LogHeader.mem_blocks.mpr ⟨j, hj, rfl⟩)
  have hfits := inv.writing.fits
  unfold InLog at hout
  omega

theorem inv_commitCopy {dst src : Fin NBUF} (inv : Inv s) (h : step s (.commitCopy p dst src) = .ok t) : Inv t := by
  obtain ⟨ph, hp, hidle, hdst, hsrc, htarget, hsource, rfl⟩ := step_commitCopy h
  have hx : (s.buf src).data = s.store (s.buf src).blockno :=
    inv.content.data src ((inv.buf src).keyed p (by simp [hsrc])) ((inv.buf src).valid p (Or.inl hsrc))
  have hbefore := inv.writing.copied p ph hp
  cases ph with
  | writeLog tail =>
    simp only [target, source, Option.some.injEq, Option.ite_none_right_eq_some] at htarget hsource
    obtain ⟨hlt, hdn⟩ := htarget
    refine inv_put inv hp hidle hdst (by simp [target, hlt, hdn]) ?_ fun j hj hc => ?_
    · simp [ownStore]
    · simp only [Phase.copied, ↓reduceIte] at hc
      have hne : s.grp.log.lh.block j ≠ (s.buf dst).blockno := by
        rw [← hdn, Nat.add_assoc]
        exact inv.block_ne hj hlt
      rw [ownStore_ne hne]
      by_cases hjt : j = tail
      · rw [hjt, hdn, hx, ← hsource]
        simp [ownStore]
      · rw [ownStore_ne (by omega)]
        exact hbefore j hj (by simp only [hidle, Sub.busy, Phase.copied, Bool.false_eq_true, ↓reduceIte]; omega)
  | install tail =>
    simp only [target, source, Option.some.injEq, Option.ite_none_right_eq_some] at htarget hsource
    obtain ⟨hlt, hdn⟩ := htarget
    refine inv_put inv hp hidle hdst (by simp [target, hlt, hdn]) ?_ fun j hj hc => ?_
    · -- what is installed is what the block holds in the cache
      rw [hx, ← hsource, ← hdn]
      exact hbefore tail hlt hlt
    · exact hbefore j hj hc
  | _ => simp [source] at hsource

theorem inv_commitHead (inv : Inv s) (h : step s (.commitHead p i) = .ok t) : Inv t := by
  obtain ⟨ph, hp, hph, hidle, hu, hno, x, rfl⟩ := step_commitHead h
  have htarget : target s.grp.log ph = some (s.buf i).blockno := by
    rcases hph with rfl | rfl <;> simp [target, hno]
  rw [← hno]
  refine inv_put inv hp hidle hu htarget ?_ fun j hj hc => ?_
  · rcases hph with rfl | rfl <;> simp [ownStore]
  · have hne : s.grp.log.lh.block j ≠ (s.buf i).blockno := by
      rw [hno]
      exact inv.block_ne (k := 0) hj (Nat.zero_le _)
    rw [ownStore_ne hne, ownStore_ne (by omega)]
    refine inv.writing.copied p ph hp j hj ?_
    rcases hph with rfl | rfl
    · exact hc
    · simp [Phase.copied] at hc

theorem inv_commitFlush (inv : Inv s) (h : step s (.commitFlush p) = .ok t) : Inv t := by
  obtain ⟨ph, i, hp, hs, rfl⟩ := step_commitFlush h
  obtain ⟨q, ph', hq, hu, htarget⟩ := inv.writing.sub i (Or.inl hs)
  have hroot := (inv.buf i).keyed q (by simp [hu])
  have hdata := inv.content.data i hroot ((inv.buf i).valid q (Or.inl hu))
  exact {
    grp := inv.grp
    lru := inv.lru
    buf := inv.buf
    content := by
      refine inv.content.store (i := i) (b := s.buf i) rfl rfl hroot rfl (Function.update_eq_self ..).symm hdata id
        (fun _ _ => rfl) (fun n hn => Function.update_of_ne hn ..) (Or.inl ?_) fun j hj hd => ?_
      · simpa using hdata
      · rcases hd with hd | hd
        · exact Or.inl hd
        · rw [hs] at hd
          cases hd
          exact absurd rfl hj
    writing := {
      home := inv.writing.home
      fits := inv.writing.fits
      sub := fun j hw => by
        obtain rfl : i = j := by rcases hw with hw | hw <;> cases hw; rfl
        exact ⟨q, ph', hq, hu, htarget⟩
      flushed := fun j hj => by
        cases hj
        simpa using hdata
      copied := by
        have := inv.writing.copied
        rw [hs] at this
        exact this } }

omit [Fintype P] in
theorem commitStep_log {g : Group.Sys P} (ph : Group.Phase) :
    (Group.commitStep g p ph).log.start = g.log.start ∧ (Group.commitStep g p ph).log.size = g.log.size ∧
      ((Group.commitStep g p ph).log.lh = g.log.lh ∨ (Group.commitStep g p ph).log.lh.n = 0) := by
  cases ph with
  | install tail => simp only [Group.commitStep]; split <;> simp
  | _ => simp [Group.commitStep]

theorem pinned_commitStep {g : Group.Sys P} (hg : Group.Inv g) {ph : Group.Phase} (hp : g.pc p = .commit ph) (n : Nat) :
    Pinned (Group.commitStep g p ph) n ↔
      Pinned g n ∧ ∀ tail, ph = .install tail → tail < g.log.lh.n → n ≠ g.log.lh.block tail := by
  cases ph with
  | install tail =>
    by_cases hlt : tail < g.log.lh.n
    · simp [Pinned, Group.commitStep, hlt, and_assoc]
    · simp [Pinned, Group.commitStep, hlt]
  | clear =>
    have hw : g.hist.written = g.log.lh.blocks := hg.written p _ hp
    simp [Pinned, Group.commitStep, LogHeader.blocks, hw]
  | _ => simp [Pinned, Group.commitStep]

omit [DecidableEq P] in
theorem pinned_install {g : Group.Sys P} (hg : Group.Inv g) {tail : Nat} (hp : g.pc p = .commit (.install tail))
    (hlt : tail < g.log.lh.n) : Pinned g (g.log.lh.block tail) := by
  refine ⟨LogHeader.mem_blocks.mpr ⟨tail, hlt, rfl⟩, ?_⟩
  rw [hg.written p _ hp]
  simp only [Group.Phase.written, LogHeader.blocks, ← List.map_take, List.take_range, List.mem_map, List.mem_range,
    not_exists, not_and]
  intro k hk he
  have := List.inj_on_of_nodup_map hg.nodup (List.mem_range.mpr (by omega)) (List.mem_range.mpr hlt) he
  omega

theorem commit_next {g : Group.Sys P} (hg : Group.Inv g) {ph ph' v : Group.Phase} {q : P}
    (hp : g.pc p = .commit ph) (hq : Function.update g.pc p (.commit v) q = .commit ph') : v = ph' := by
  rcases update_cases hq with ⟨-, h⟩ | ⟨hqp, hq⟩
  · simpa using h
  · exact absurd (hg.commit_unique q p _ _ hq hp) hqp

theorem copied_commitStep {g : Group.Sys P} (hg : Group.Inv g) {ph ph' : Group.Phase} {q : P}
    (hp : g.pc p = .commit ph) (hq : (Group.commitStep g p ph).pc q = .commit ph') {j : Nat}
    (hj : j < (Group.commitStep g p ph).log.lh.n) (hc : j < Phase.copied (Group.commitStep g p ph).log.lh.n false ph') :
    j < Phase.copied g.log.lh.n (target g.log ph).isSome ph := by
  cases ph with
  | enter =>
    obtain rfl := commit_next hg hp hq
    split at hc <;> simp [Phase.copied] at hc
  | writeLog tail =>
    obtain rfl := commit_next hg hp hq
    simp only [target]
    split at hc
    · rename_i hlt; simpa [Phase.copied, hlt] using hc
    · rename_i hge
      simp only [Phase.copied, hge, ↓reduceIte, Option.isSome_none, Bool.false_eq_true]
      exact Nat.lt_of_lt_of_le hj (Nat.le_of_not_lt hge)
  | writeHead =>
    obtain rfl := commit_next hg hp hq
    exact hc
  | install tail =>
    simp only [Group.commitStep] at hq hj
    split at hq
    · rename_i hlt
      simp only [hlt, ↓reduceIte] at hj
      exact hj
    · rename_i hge
      simp only [hge, ↓reduceIte] at hj
      exact hj
  | clear => simp [Group.commitStep] at hj
  | eraseHead =>
    obtain rfl := commit_next hg hp hq
    simp [Phase.copied] at hc
  | finish =>
    have hq' : Function.update g.pc p .idle q = .commit ph' := Group.wakeup_commit.mp hq
    rcases update_cases hq' with ⟨-, h⟩ | ⟨hqp, hq'⟩
    · cases h
    · exact absurd (hg.commit_unique q p _ _ hq' hp) hqp

theorem Inv.next {ph : Group.Phase} (inv : Inv s) (hp : s.grp.pc p = .commit ph)
    (hgrp : t.grp = Group.commitStep s.grp p ph) (hsub : t.sub = .idle) (hlru : t.lru = s.lru) (hst : Same s t)
    (huse : ∀ i, (t.buf i).use = (s.buf i).use) (hlock : ∀ i, (t.buf i).lock = (s.buf i).lock)
    (href : ∀ i, (t.buf i).refcnt - (t.buf i).pins t.grp = (s.buf i).refcnt - (s.buf i).pins s.grp)
    (hout : ∀ n, Pinned s.grp n → s.disk n = s.store n ∨ Pinned t.grp n) (hfilled : ∀ i, s.sub ≠ .filled i)
    (hbusy : (target s.grp.log ph).isSome = s.sub.busy) : Inv t := by
  obtain ⟨hstart, hsize, hlh⟩ := commitStep_log (p := p) (g := s.grp) ph
  rw [← hgrp] at hstart hsize hlh
  have quiet : ∀ j, ¬Dirty s j := fun j hd => by
    rcases hd with ⟨q, hq⟩ | hs
    · exact inv.not_dirty_of_commit hp j q hq
    · exact hfilled j hs
  exact {
    grp := by
      rw [hgrp]
      exact Group.inv_commitStep (p := p) inv.grp (by simp [Group.step, hp])
    lru := by rw [hlru]; exact inv.lru
    buf := fun i => (inv.buf i).regroup (huse i) (hst.dev i) (hlock i) (hst.valid i) (href i) fun q hq =>
      absurd hq (inv.not_dirty_of_commit hp i q)
    content := by
      refine inv.content.same hst (fun n hn => ?_) fun n hn => ?_
      · rw [hgrp, pinned_commitStep inv.grp hp] at hn
        exact inv.content.pinned n hn.1
      · rcases hn with hn | ⟨j, -, hd⟩
        · exact (hout n hn).imp_right Or.inl
        · exact absurd hd (quiet j)
    writing := {
      home := fun n hn => by
        unfold InLog
        rw [hstart, hsize]
        rcases hlh with hlh | hlh
        · exact inv.writing.home n (hlh ▸ hn)
        · simp [LogHeader.blocks, hlh] at hn
      fits := by
        rw [hsize]
        rcases hlh with hlh | hlh
        · rw [hlh]; exact inv.writing.fits
        · exact Or.inl hlh
      sub := fun j hw => by rw [hsub] at hw; rcases hw with hw | hw <;> cases hw
      flushed := fun j hj => by rw [hsub] at hj; cases hj
      copied := fun q ph' hq j hj hc => by
        rw [hsub, hgrp] at hc
        have hold := copied_commitStep inv.grp hp (hgrp ▸ hq) (hgrp ▸ hj) hc
        rw [hbusy] at hold
        rcases hlh with hlh | hlh
        · rw [hst.store, hstart, hlh]
          exact inv.writing.copied p ph hp j (hlh ▸ hj) hold
        · rw [hlh] at hj; cases hj } }

theorem inv_commitNext (inv : Inv s) (h : step s (.commitNext p) = .ok t) : Inv t := by
  obtain ⟨ph, hp, ⟨htarget, hidle, rfl⟩ | ⟨n, i, htarget, hflushed, rfl⟩⟩ := step_commitNext h
  · have hpin : ∀ m, Pinned (Group.commitStep s.grp p ph) m ↔ Pinned s.grp m := fun m => by
      rw [pinned_commitStep inv.grp hp]
      refine and_iff_left fun tail hph hlt => ?_
      simp [hph, target, hlt] at htarget
    refine inv.next hp rfl hidle rfl ⟨fun _ => rfl, fun _ => rfl, fun _ => rfl, fun _ => rfl, rfl, rfl⟩ (fun _ => rfl)
      (fun _ => rfl) (fun j => ?_) (fun m hm => Or.inr ((hpin m).mpr hm)) (by simp [hidle]) (by simp [htarget, hidle, Sub.busy])
    simp only [Buf.pins, hpin]
  · obtain ⟨q, ph', hq, hu, ht⟩ := inv.writing.sub i (Or.inr hflushed)
    obtain rfl := inv.grp.commit_unique q p _ _ hq hp
    cases hq.symm.trans hp
    have hroot := (inv.buf i).keyed q (by simp [hu])
    have hclean := inv.writing.flushed i hflushed
    -- the block that is unpinned is the one in the flushed buffer
    have hinst : ∀ tail, ph = .install tail → tail < s.grp.log.lh.n ∧ s.grp.log.lh.block tail = (s.buf i).blockno := by
      rintro tail rfl
      simpa [target] using ht
    have hpin := fun m => pinned_commitStep inv.grp hp m
    refine inv.next hp rfl rfl rfl ?_ ?_ ?_ ?_ (fun m hm => ?_) (by simp [hflushed]) (by simp [htarget, hflushed, Sub.busy])
    · obtain ⟨h1, h2, h3, h4, h5, h6⟩ :=
        Same.set (s := s) (i := i) (b := (s.buf i).unpin (Phase.unpins ph)) rfl rfl rfl rfl
      exact ⟨h1, h2, h3, h4, h5, h6⟩
    · exact forall_set (Q := fun j c => c.use = (s.buf j).use) rfl fun _ _ => rfl
    · exact forall_set (Q := fun j c => c.lock = (s.buf j).lock) rfl fun _ _ => rfl
    · refine forall_set (Q := fun j c => c.refcnt - c.pins (Group.commitStep s.grp q ph) =
        (s.buf j).refcnt - (s.buf j).pins s.grp) ?_ fun j hj => ?_
      · by_cases hph : ∃ tail, ph = .install tail
        · obtain ⟨tail, rfl⟩ := hph
          obtain ⟨hlt, hno⟩ := hinst tail rfl
          have hold : Pinned s.grp (s.buf i).blockno := hno ▸ pinned_install inv.grp hp hlt
          have hnew : ¬Pinned (Group.commitStep s.grp q (.install tail)) (s.buf i).blockno := fun hn =>
            ((hpin _).mp hn).2 tail rfl hlt hno.symm
          simp [Buf.pins, Buf.unpin, Phase.unpins, hroot, hold, hnew]
        · have hsame : Pinned (Group.commitStep s.grp q ph) (s.buf i).blockno ↔ Pinned s.grp (s.buf i).blockno := by
            rw [hpin]
            exact and_iff_left fun tail he => absurd ⟨tail, he⟩ hph
          have hzero : Phase.unpins ph = 0 := by
            cases ph with
            | install tail => exact absurd ⟨tail, rfl⟩ hph
            | _ => rfl
          simp [Buf.pins, Buf.unpin, hzero, hsame]
      · have hsame : (s.buf j).dev = ROOTDEV → (Pinned (Group.commitStep s.grp q ph) (s.buf j).blockno ↔
            Pinned s.grp (s.buf j).blockno) := fun hd => by
          rw [hpin]
          refine and_iff_left fun tail hph _ he => hj ?_
          exact inv.content.unique j i _ ⟨hd, rfl⟩ ⟨hroot, by rw [he, (hinst tail hph).2]⟩
        simp only [Buf.pins, and_congr_right_iff.mpr hsame]
    · rw [hpin]
      by_cases hm' : m = (s.buf i).blockno
      · exact Or.inl (hm' ▸ hclean)
      · refine Or.inr ⟨hm, fun tail hph _ he => hm' ?_⟩
        rw [he, (hinst tail hph).2]

omit [DecidableEq P] in
theorem Inv.regroup {g : Group.Sys P} (inv : Inv s) (hg : Group.Inv g) (hstart : g.log.start = s.grp.log.start)
    (hsize : g.log.size = s.grp.log.size) (hlh : g.log.lh = s.grp.log.lh)
    (hwritten : g.hist.written = s.grp.hist.written)
    (hop : ∀ i q l, (s.buf i).use q = .dirty → s.grp.pc q = .inOp l → g.pc q = .inOp l)
    (hcom : ∀ q ph, s.grp.pc q = .commit ph → g.pc q = .commit ph)
    (hnew : ∀ q ph, g.pc q = .commit ph → s.grp.pc q = .commit ph ∨ ph = .enter) : Inv { s with grp := g } := by
  have hpin : ∀ n, Pinned g n ↔ Pinned s.grp n := fun n => by unfold Pinned; rw [hlh, hwritten]
  have htarget : ∀ ph, target g.log ph = target s.grp.log ph := fun ph => by
    cases ph <;> simp [target, hlh, hstart]
  exact {
    grp := hg
    lru := inv.lru
    buf := fun i => by
      refine (inv.buf i).regroup rfl rfl rfl rfl (by simp only [Buf.pins, hpin]) fun q hq => ?_
      obtain ⟨⟨l, hl⟩, hout⟩ := (inv.buf i).dirty q hq
      refine ⟨⟨l, hop i q l hq hl⟩, ?_⟩
      unfold InLog at hout ⊢
      rw [hstart, hsize]
      exact hout
    content := by
      refine inv.content.same ⟨fun _ => rfl, fun _ => rfl, fun _ => rfl, fun _ => rfl, rfl, rfl⟩ (fun n hn => ?_)
        fun n hn => Or.inr ?_
      · exact inv.content.pinned n ((hpin n).mp hn)
      · exact hn.imp_left (hpin n).mpr
    writing := {
      home := fun n hn => by
        unfold InLog
        rw [hstart, hsize]
        exact inv.writing.home n (hlh ▸ hn)
      fits := by
        rw [hlh, hsize]
        exact inv.writing.fits
      sub := fun j hw => by
        obtain ⟨q, ph, hq, hu, ht⟩ := inv.writing.sub j hw
        exact ⟨q, ph, hcom q ph hq, hu, (htarget ph).trans ht⟩
      flushed := inv.writing.flushed
      copied := fun q ph hq j hj hc => by
        rw [hlh] at hj hc
        rw [hlh, hstart]
        rcases hnew q ph hq with hq | rfl
        · exact inv.writing.copied q ph hq j hj hc
        · simp [Phase.copied] at hc } }

theorem inv_beginOp (inv : Inv s) (h : step s (.beginOp p) = .ok t) : Inv t := by
  obtain ⟨g, hg, rfl⟩ := step_beginOp h
  have hginv := Group.inv_beginOp inv.grp hg
  obtain ⟨hp, hgeq⟩ := Group.step_beginOp hg
  have hlog : g.log.start = s.grp.log.start ∧ g.log.size = s.grp.log.size ∧ g.log.lh = s.grp.log.lh ∧
      g.hist = s.grp.hist ∧ ∃ v, g.pc = Function.update s.grp.pc p v ∧ ∀ ph, v ≠ .commit ph := by
    rw [hgeq]
    unfold Group.beginOp
    split
    · exact ⟨rfl, rfl, rfl, rfl, .asleep, rfl, by simp⟩
    · split
      · exact ⟨rfl, rfl, rfl, rfl, .asleep, rfl, by simp⟩
      · exact ⟨rfl, rfl, rfl, rfl, .inOp [], rfl, by simp⟩
  obtain ⟨hstart, hsize, hlh, hhist, v, hpc, hv⟩ := hlog
  have keep : ∀ {q x}, x ≠ .idle → x ≠ .woken → s.grp.pc q = x → g.pc q = x := by
    intro q x h1 h2 hq
    have hqp : q ≠ p := fun he => by
      rw [he] at hq
      rcases hp with hp | hp
      · exact h1 (hq.symm.trans hp)
      · exact h2 (hq.symm.trans hp)
    rw [hpc, Function.update_of_ne hqp, hq]
  refine inv.regroup hginv hstart hsize hlh (by rw [hhist]) (fun _ q l _ => keep (by simp) (by simp))
    (fun q ph => keep (by simp) (by simp)) fun q ph hq => Or.inl ?_
  rw [hpc] at hq
  exact update_back (hv ph) hq

theorem inv_endOp (inv : Inv s) (h : step s (.endOp p) = .ok t) : Inv t := by
  obtain ⟨g, hg, hnone, rfl⟩ := step_endOp h
  have hginv := Group.inv_endOp inv.grp hg
  obtain ⟨l, hp, -, hhist, hcase⟩ := Group.step_endOp hg
  have hdirty : ∀ {i q}, (s.buf i).use q = .dirty → q ≠ p := by
    rintro i q hq rfl
    rw [hnone i] at hq
    cases hq
  have hw : g.hist.written = s.grp.hist.written := by rw [hhist]
  have hcom : ∀ q ph, s.grp.pc q = .commit ph → g.pc q = .commit ph := fun q ph hq =>
    absurd hq (inv.not_commit_of_op hp)
  rcases hcase with ⟨-, hpc, hlog⟩ | ⟨-, hpc, hlog⟩
  · refine inv.regroup hginv (by rw [hlog]) (by rw [hlog]) (by rw [hlog]) hw (fun i q l' hd hq => ?_) hcom
      fun q ph hq => ?_
    · rw [hpc, Function.update_of_ne (hdirty hd), hq]
    · rw [hpc] at hq
      rcases update_cases hq with ⟨-, h⟩ | ⟨-, hq⟩
      · exact Or.inr (by simpa using h.symm)
      · exact Or.inl hq
  · refine inv.regroup hginv (by rw [hlog]) (by rw [hlog]) (by rw [hlog]) hw (fun i q l' hd hq => ?_) hcom
      fun q ph hq => ?_
    · rw [hpc, Group.wakeup_inOp, Function.update_of_ne (hdirty hd), hq]
    · rw [hpc, Group.wakeup_commit] at hq
      exact Or.inl (update_back (by simp) hq)

theorem inv_step {a : Action P} (inv : Inv s) (h : step s a = .ok t) : Inv t := by
  cases a with
  | beginOp p => exact inv_beginOp inv h
  | endOp p => exact inv_endOp inv h
  | bget p n => exact inv_bget inv h
  | acquire p i => exact inv_acquire inv h
  | fill p i => exact inv_fill inv h
  | modify p i x => exact inv_modify inv h
  | logWrite p i => exact inv_logWrite inv h
  | release p i => exact inv_release inv h
  | drop p i => exact inv_drop inv h
  | commitCopy p dst src => exact inv_commitCopy inv h
  | commitHead p i => exact inv_commitHead inv h
  | commitFlush p => exact inv_commitFlush inv h
  | commitNext p => exact inv_commitNext inv h

theorem inv_reach {size : Nat} {ok : Sys P → Action P → Prop} (h : Reach (Init size) step ok s) : Inv s :=
  h.invariant (fun _ => inv_init) fun _ _ _ inv _ hs => inv_step inv hs

theorem key_step {a : Action P} {n : Nat} (inv : Inv s) (h : step s a = .ok t) (hu : (s.buf i).use p ≠ .none)
    (hk : Key s i n) : Key t i n := by
  -- every step but the recycling of a buffer keeps all keys
  have keep : ∀ {j b}, b.dev = (s.buf j).dev → b.blockno = (s.buf j).blockno → Key (s.set j b) i n := by
    intro j b hd hn
    exact forall_set (Q := fun k c => Key s k n → c.dev = ROOTDEV ∧ c.blockno = n)
      (fun hk => ⟨hd.trans hk.1, hn.trans hk.2⟩) (fun _ _ => id) i hk
  cases a with
  | beginOp q => obtain ⟨g, -, rfl⟩ := step_beginOp h; exact hk
  | endOp q => obtain ⟨g, -, -, rfl⟩ := step_endOp h; exact hk
  | bget q m =>
    rcases step_bget h with ⟨j, -, -, rfl⟩ | ⟨j, -, h0, rfl⟩
    · exact keep rfl rfl
    · have hij : i ≠ j := by
        rintro rfl
        exact hu (((inv.buf i).unused h0).1 p)
      unfold Key
      rw [set_buf_ne s _ hij]
      exact hk
  | acquire q j => obtain ⟨-, -, rfl⟩ := step_acquire h; exact keep rfl rfl
  | fill q j => obtain ⟨-, rfl⟩ := step_fill h; exact keep rfl rfl
  | modify q j x => obtain ⟨-, -, -, rfl⟩ := step_modify h; exact keep (b := (s.buf j).modify q x) rfl rfl
  | logWrite q j =>
    obtain ⟨-, -, g, -, rfl⟩ := step_logWrite h
    exact keep (b := (s.buf j).logged q _) rfl rfl
  | release q j => obtain ⟨-, -, rfl⟩ := step_release h; exact keep rfl rfl
  | drop q j =>
    obtain ⟨-, rfl⟩ := step_drop h
    have := keep (b := (s.buf j).drop q) rfl rfl
    simp only [drop]
    split <;> exact this
  | commitCopy q dst src =>
    obtain ⟨ph, -, -, -, -, -, -, rfl⟩ := step_commitCopy h
    exact keep (b := (s.buf dst).put _) rfl rfl
  | commitHead q j =>
    obtain ⟨ph, -, -, -, -, -, x, rfl⟩ := step_commitHead h
    exact keep (b := (s.buf j).put x) rfl rfl
  | commitFlush q => obtain ⟨ph, j, -, -, rfl⟩ := step_commitFlush h; exact hk
  | commitNext q =>
    obtain ⟨ph, -, ⟨-, -, rfl⟩ | ⟨m, j, -, -, rfl⟩⟩ := step_commitNext h
    · exact hk
    · exact keep (b := (s.buf j).unpin _) rfl rfl

theorem store_step {a : Action P} (inv : Inv s) (h : step s a = .ok t) :
    (∃ p i x, a = .modify p i x ∧ t.store = Function.update s.store (s.buf i).blockno x) ∨
      ∀ n, n ≠ s.grp.log.start → ¬InLog s.grp.log n → t.store n = s.store n := by
  cases a with
  | modify q j x => obtain ⟨-, -, -, rfl⟩ := step_modify h; exact Or.inl ⟨q, j, x, rfl, rfl⟩
  | commitCopy q dst src =>
    obtain ⟨ph, -, -, -, -, htarget, hsource, rfl⟩ := step_commitCopy h
    refine Or.inr fun n _ hout => ?_
    cases ph with
    | writeLog tail =>
      simp only [target, Option.ite_none_right_eq_some, Option.some.injEq] at htarget
      obtain ⟨hlt, hno⟩ := htarget
      have hfits := inv.writing.fits
      have hne : n ≠ (s.buf dst).blockno := fun he => hout (by unfold InLog; omega)
      show ownStore s (.writeLog tail) (s.buf dst).blockno (s.buf src).data n = s.store n
      exact ownStore_ne hne
    | install tail => rfl
    | _ => simp [source] at hsource
  | commitHead q j =>
    obtain ⟨ph, -, -, -, -, -, x, rfl⟩ := step_commitHead h
    exact Or.inr fun n hn _ => ownStore_ne hn
  | beginOp q => obtain ⟨g, -, rfl⟩ := step_beginOp h; exact Or.inr fun _ _ _ => rfl
  | endOp q => obtain ⟨g, -, -, rfl⟩ := step_endOp h; exact Or.inr fun _ _ _ => rfl
  | bget q m => rcases step_bget h with ⟨j, -, -, rfl⟩ | ⟨j, -, -, rfl⟩ <;> exact Or.inr fun _ _ _ => rfl
  | acquire q j => obtain ⟨-, -, rfl⟩ := step_acquire h; exact Or.inr fun _ _ _ => rfl
  | fill q j => obtain ⟨-, rfl⟩ := step_fill h; exact Or.inr fun _ _ _ => rfl
  | logWrite q j => obtain ⟨-, -, g, -, rfl⟩ := step_logWrite h; exact Or.inr fun _ _ _ => rfl
  | release q j => obtain ⟨-, -, rfl⟩ := step_release h; exact Or.inr fun _ _ _ => rfl
  | drop q j =>
    obtain ⟨-, rfl⟩ := step_drop h
    simp only [drop]
    split <;> exact Or.inr fun _ _ _ => rfl
  | commitFlush q => obtain ⟨ph, j, -, -, rfl⟩ := step_commitFlush h; exact Or.inr fun _ _ _ => rfl
  | commitNext q =>
    obtain ⟨ph, -, ⟨-, -, rfl⟩ | ⟨m, j, -, -, rfl⟩⟩ := step_commitNext h <;> exact Or.inr fun _ _ _ => rfl

/-- The cache and the log refine the plain block store `store`: `bread` returns what the store holds, and a valid
    buffer without references equals its block on the disk. -/
theorem cache_refines_store {size : Nat} (h : Reach (Init size) step (fun _ _ => True) s) :
    (∀ a t, step s a = .ok t → (∃ p i x, a = .modify p i x ∧ t.store = Function.update s.store (s.buf i).blockno x) ∨
      ∀ n, n ≠ s.grp.log.start → ¬InLog s.grp.log n → t.store n = s.store n) ∧
    (∀ p n t, step s (.bget p n) = .ok t → ∃ i, (t.buf i).use p = .ref ∧ Key t i n) ∧
    (∀ a t, step s a = .ok t → ∀ i p n, (s.buf i).use p ≠ .none → Key s i n → Key t i n) ∧
    (∀ p i t, step s (.fill p i) = .ok t → (t.buf i).use p = .ready ∧ (t.buf i).data = s.store (s.buf i).blockno) ∧
    (∀ i p, (s.buf i).use p = .ready ∨ (s.buf i).use p = .dirty → (s.buf i).data = s.store (s.buf i).blockno) ∧
    (∀ i, (s.buf i).valid = true → (s.buf i).refcnt = 0 → (s.buf i).data = s.disk (s.buf i).blockno) := by
  have inv := inv_reach h
  refine ⟨fun a t => store_step inv, fun p n t hb => ?_, fun a t ht i p n => key_step inv ht, fun p i t hf => ?_,
    fun i p hu => ?_, fun i hv h0 => ?_⟩
  · rcases step_bget hb with ⟨i, hk, -, rfl⟩ | ⟨i, -, -, rfl⟩
    · refine ⟨i, ?_, ?_⟩
      · rw [set_buf_self]; exact Function.update_self ..
      · unfold Key; rw [set_buf_self]; exact hk
    · refine ⟨i, ?_, ?_⟩
      · rw [set_buf_self]; exact Function.update_self ..
      · unfold Key; rw [set_buf_self]; exact ⟨rfl, rfl⟩
  · obtain ⟨hu, rfl⟩ := step_fill hf
    rw [set_buf_self]
    exact ⟨Function.update_self .., inv.fill_data hu⟩
  · have hv := (inv.buf i).valid p hu
    exact inv.content.data i ((inv.buf i).root hv) hv
  · obtain ⟨hunused, hunpinned⟩ := (inv.buf i).unused h0
    have hroot := (inv.buf i).root hv
    rw [inv.content.data i hroot hv]
    rcases inv.content.disk (s.buf i).blockno with hd | hp | ⟨j, hk, hd⟩
    · exact hd.symm
    · exact absurd ⟨hroot, hp⟩ hunpinned
    · obtain rfl := inv.content.unique j i _ hk ⟨hroot, rfl⟩
      rcases hd with ⟨q, hq⟩ | hs
      · rw [hunused q] at hq; cases hq
      · obtain ⟨q, -, -, hq, -⟩ := inv.writing.sub j (Or.inl hs)
        rw [hunused q] at hq; cases hq

end

def boot (P : Type) : Sys P where
  grp := Group.boot P
  buf _ :=
    { valid := false, dev := 0, blockno := 0, lock := none, refcnt := 0, data := Bytes.zero, use := fun _ => .none }
  lru := List.finRange NBUF
  disk _ := Bytes.zero
  sub := .idle
  store _ := Bytes.zero

theorem boot_init (P : Type) : Init LOGSIZE (boot P) where
  grp := Group.boot_init P
  lru := List.mem_finRange
  dev _ := rfl
  valid _ := rfl
  lock _ := rfl
  refcnt _ := rfl
  use _ _ := rfl
  sub := rfl
  store := rfl

theorem cache_refines_store_commit : ∃ s : Sys (Fin 1), (s.buf 29).blockno = 100 ∧ (s.buf 29).refcnt = 0 ∧
    (s.disk 100).get 5 = 7 ∧ (s.buf 29).data = s.disk 100 := by
  let bread (n : Nat) (i : Fin NBUF) : List (Action (Fin 1)) := [.bget 0 n, .acquire 0 i, .fill 0 i]
  let brelse (i : Fin NBUF) : List (Action (Fin 1)) := [.release 0 i, .drop 0 i]
  let write : List (Action (Fin 1)) := [.commitFlush 0, .commitNext 0]
  let trace : List (Action (Fin 1)) := List.flatten [
    [.beginOp 0], bread 100 29, [.modify 0 29 (Bytes.zero.put 5 1 7), .logWrite 0 29], brelse 29, [.endOp 0, .commitNext 0],
    bread 3 28, bread 100 29, [.commitCopy 0 28 29], write, brelse 29, brelse 28, [.commitNext 0],
    bread 2 27, [.commitHead 0 27], write, brelse 27,
    bread 3 28, bread 100 29, [.commitCopy 0 29 28], write, brelse 28, brelse 29, [.commitNext 0, .commitNext 0],
    bread 2 27, [.commitHead 0 27], write, brelse 27, [.commitNext 0]]
  have h : (run step (fun _ _ => true) (boot (Fin 1)) trace).any (fun t : Sys (Fin 1) =>
      (t.buf 29).valid && (t.buf 29).blockno = 100 && (t.buf 29).refcnt = 0 && (t.disk 100).get 5 = 7) = true := by
    decide +kernel
  obtain ⟨t, hrun, ht⟩ := (Option.any_eq_true _ _).mp h
  simp only [Bool.and_eq_true, decide_eq_true_eq] at ht
  obtain ⟨⟨⟨hv, hno⟩, h0⟩, hbyte⟩ := ht
  have hreach : Reach (Init LOGSIZE) step (fun _ _ => True) t :=
    Reach.of_run (fun _ _ _ => trivial) _ (.init (boot_init _)) hrun
  obtain ⟨-, -, -, -, -, hclean⟩ := cache_refines_store hreach
  exact ⟨t, hno, h0, hbyte, hno ▸ hclean 29 hv h0⟩

end Xv6.Bio
