import Xv6.Fs.Reading
import Xv6.Fs.Content

/-! Files as arrays of bytes, on a volume whose files have their blocks to themselves and no holes. -/

namespace Xv6.Fs
open Lib

def content (disk : Disk) (d : Dinode) : List UInt8 := (List.range d.size.toNat).map (fileByte disk d)

def Source.memory (buf : Nat → UInt8) : Source := ⟨buf, fun _ m => m⟩

/-- No block-sized part of the source is copied in part: `either_copyin` copies all of it or faults at its first byte. -/
def Source.Whole (src : Source) : Prop := ∀ tot m, m ≤ src.copied tot m ∨ src.copied tot m = 0

theorem Source.memory_whole (buf : Nat → UInt8) : (Source.memory buf).Whole := fun _ _ => .inl (Nat.le_refl _)

/-- Every block is marked as in use, so `balloc` returns 0. -/
def NoSpace (sb : Superblock) (disk : Disk) : Prop := ∀ b < sb.size, inUse sb disk b = true

def LogPanic (e : Stop) : Prop := e = .panic "too big a transaction" ∨ e = .panic "log_write outside of trans"

section Exec
variable {α : Type} {m : M α} {s : Sys}

theorem exec_cases {Q : α → Sys → Prop} {E : Stop → Prop} (h : wp m Q (fun e _ => E e) s) :
    (∃ a t, exec m s = .ok (a, t) ∧ Q a t) ∨ ∃ e, exec m s = .error e ∧ E e := by
  unfold wp at h
  unfold exec
  split at h
  · rename_i a t hm
    exact .inl ⟨a, t, by rw [hm], h⟩
  · rename_i e t hm
    exact .inr ⟨e, by rw [hm], h⟩

theorem exec_error {stop : Stop} (h : (match exec m s with
    | .ok _ => false
    | .error e => decide (e = stop)) = true) : exec m s = .error stop := by
  split at h
  · cases h
  · rename_i hm
    rw [hm, of_decide_eq_true h]

theorem exec_ok [DecidableEq α] {a : α} (h : (match exec m s with
    | .ok (b, _) => decide (b = a)
    | .error _ => false) = true) : ∃ t, exec m s = .ok (a, t) := by
  split at h
  · rename_i b t hm
    exact ⟨t, by rw [hm, of_decide_eq_true h]⟩
  · cases h

end Exec

section Log
variable {sb : Superblock} {s : Sys}

theorem wp_logWrite_log {b : Nat} {x : Block} {Q : Unit → Sys → Prop}
    (h : ∀ t, SameTables s t → t.disk = Function.update s.disk b x → Q () t) :
    wp (logWrite sb b x) Q (fun e _ => LogPanic e) s := by
  unfold logWrite
  simp only [wp_bind, wp_view, wp_stopIf, wp_change]
  exact ⟨fun _ => .inl rfl, fun _ => ⟨fun _ => .inr rfl, fun _ => h _ ⟨rfl, rfl⟩ rfl⟩⟩

theorem freeBit_none {x : Block} {b size rounds bi : Nat} (h : freeBit x b size rounds bi = none) {i : Nat} (hi : bi ≤ i)
    (hi' : i < bi + rounds) (hsize : b + i < size) : testBit x i = true := by
  induction rounds generalizing bi with
  | zero => omega
  | succ rounds ih =>
    rw [freeBit] at h
    split at h
    · split at h
      · rcases Nat.eq_or_lt_of_le hi with rfl | hlt
        · assumption
        · exact ih h hlt (by omega)
      · cases h
    · omega

theorem wp_balloc_log (ho : sb.Ordered) (hfront : ∀ b < sb.datastart, inUse sb s.disk b = true) :
    wp (balloc sb) (fun r t => (∀ b < sb.bmapstart, t.disk b = s.disk b) ∧ (r = 0 → NoSpace sb t.disk))
      (fun e _ => LogPanic e) s := by
  unfold balloc
  rw [wp_bind]
  have hBPB : 0 < BPB := by decide
  refine wp_forUp (I := fun a t => t = s ∧ a % BPB = 0 ∧ ∀ b < a, b < sb.size → inUse sb s.disk b = true) hBPB
    ⟨rfl, Nat.zero_mod _, fun b hb => absurd hb (Nat.not_lt_zero b)⟩ ?_ ?_
  · rintro a t ha ⟨rfl, hmod, hbelow⟩
    have hsize := ho.blocks
    -- bit `i` of this block of the free map is the bit of block `a + i`
    have hbit : ∀ i < BPB, inUse sb t.disk (a + i) = testBit (t.disk (sb.BBLOCK a)) i := by
      intro i hi
      have hblock : sb.BBLOCK (a + i) = sb.BBLOCK a := by
        unfold Superblock.BBLOCK
        unfold BPB BSIZE at *
        omega
      have hi' : (a + i) % BPB = i := by
        rw [Nat.add_mod, hmod, Nat.zero_add, Nat.mod_mod, Nat.mod_eq_of_lt hi]
      rw [inUse, hblock, hi']
    rw [wp_bind]
    unfold bread
    rw [wp_view]
    split
    · rename_i bi hbi
      obtain ⟨hlt, hclear, hbound⟩ := freeBit_spec hbi
      have hfree : inUse sb t.disk (a + bi) = false := (hbit bi (by omega)).trans hclear
      have hdata : sb.datastart ≤ a + bi := by
        by_contra hlow
        rw [hfront _ (by omega)] at hfree
        exact Bool.noConfusion hfree
      have hmap := ho.bitmap _ hlt
      have hmapa := ho.bitmap a ha
      have hlow := bmapstart_le sb a
      rw [wp_bind]
      refine wp_logWrite_log fun u hu hudisk => ?_
      rw [wp_bind]
      refine wp_logWrite_log fun w hw hwdisk => ?_
      refine ⟨fun b hb => ?_, fun h0 => ?_⟩
      · rw [hwdisk, Function.update_of_ne (by omega), hudisk, Function.update_of_ne (by omega)]
      · simp only [Option.getD_some] at h0
        omega
    · rename_i hnone
      refine ⟨?_, rfl, ?_, fun b hb hsz => ?_⟩
      · unfold BPB BSIZE
        omega
      · rw [Nat.add_mod_right, hmod]
      · by_cases hba : b < a
        · exact hbelow b hba hsz
        · obtain ⟨i, rfl⟩ := Nat.exists_eq_add_of_le (Nat.le_of_not_lt hba)
          rw [hbit i (by omega)]
          exact freeBit_none hnone (Nat.zero_le i) (by omega) hsz
  · rintro a t ha ⟨rfl, -, hbelow⟩
    exact ⟨fun _ _ => rfl, fun _ b hb => hbelow b (by omega) hb⟩

end Log

/-- From `s` to `t` only the file of entry `e` has changed; its new blocks were free. -/
structure Aside (sb : Superblock) (e : Fin NINODE) (s t : Sys) : Prop where
  others : ∀ e', e' ≠ e → t.itable e' = s.itable e'
  inum : (t.itable e).inum = (s.itable e).inum
  ref : (t.itable e).ref = (s.itable e).ref
  valid : (t.itable e).valid = (s.itable e).valid
  locked : (t.itable e).locked = (s.itable e).locked
  used : ∀ b < sb.size, inUse sb s.disk b = true → inUse sb t.disk b = true
  disk : ∀ b < sb.size, sb.datastart ≤ b → inUse sb s.disk b = true → (∀ j, slot s.disk (s.itable e).d j ≠ b) →
    t.disk b = s.disk b
  own : ∀ j, slot t.disk (t.itable e).d j = slot s.disk (s.itable e).d j ∨
    slot t.disk (t.itable e).d j < sb.size ∧ inUse sb s.disk (slot t.disk (t.itable e).d j) = false
  inodes : ∀ i < sb.ninodes, i ≠ (s.itable e).inum → dinode sb t.disk i = dinode sb s.disk i

section Aside
variable {sb : Superblock} {e : Fin NINODE} {s t u : Sys}

theorem Aside.refl : Aside sb e s s :=
  ⟨fun _ _ => rfl, rfl, rfl, rfl, rfl, fun _ _ h => h, fun _ _ _ _ _ => rfl, fun _ => .inl rfl, fun _ _ _ => rfl⟩

theorem Aside.trans (h : Aside sb e s t) (h' : Aside sb e t u) : Aside sb e s u where
  others e' he := (h'.others e' he).trans (h.others e' he)
  inum := h'.inum.trans h.inum
  ref := h'.ref.trans h.ref
  valid := h'.valid.trans h.valid
  locked := h'.locked.trans h.locked
  used b hb hin := h'.used b hb (h.used b hb hin)
  disk b hb hdata hin hne := by
    refine (h'.disk b hb hdata (h.used b hb hin) fun j hj => ?_).trans (h.disk b hb hdata hin hne)
    rcases h.own j with hold | ⟨-, hfree⟩
    · exact hne j (hold.symm.trans hj)
    · rw [hj, hin] at hfree
      exact Bool.noConfusion hfree
  own j := by
    rcases h'.own j with hold | ⟨hlt, hfree⟩
    · rw [hold]
      exact h.own j
    · refine .inr ⟨hlt, ?_⟩
      by_contra hin
      rw [h.used _ hlt (Bool.not_eq_false _ ▸ hin)] at hfree
      exact Bool.noConfusion hfree
  inodes i hi hne := (h'.inodes i hi (by rwa [h.inum])).trans (h.inodes i hi hne)

theorem dinode_low (ho : sb.Ordered) {disk disk' : Disk} (hlow : ∀ b < sb.bmapstart, disk' b = disk b) {i : Nat}
    (hi : i < sb.ninodes) : dinode sb disk' i = dinode sb disk i := by
  unfold dinode
  rw [hlow _ (ho.inodes i hi)]

theorem aside_fresh (ho : sb.Ordered) {r : Nat} (hf : Fresh sb s.disk t.disk r)
    (hlow : ∀ b < sb.bmapstart, t.disk b = s.disk b) (hothers : ∀ e', e' ≠ e → u.itable e' = s.itable e')
    (hinum : (u.itable e).inum = (s.itable e).inum) (href : (u.itable e).ref = (s.itable e).ref)
    (hvalid : (u.itable e).valid = (s.itable e).valid) (hlocked : (u.itable e).locked = (s.itable e).locked)
    (hslot : ∀ j, slot u.disk (u.itable e).d j = r ∨ slot u.disk (u.itable e).d j = slot s.disk (s.itable e).d j)
    (hsame : ∀ b, b < sb.datastart ∨ (∀ j, slot s.disk (s.itable e).d j ≠ b) → u.disk b = t.disk b) :
    Aside sb e s u := by
  have huse : ∀ b < sb.size, inUse sb u.disk b = inUse sb t.disk b := fun b hb => by
    unfold inUse
    rw [hsame _ (.inl (ho.bitmap b hb))]
  refine ⟨hothers, hinum, href, hvalid, hlocked, fun b hb hin => ?_, fun b _ hdata hin hne => ?_, fun j => ?_, fun i hi _ => ?_⟩
  · rw [huse b hb, hf.inUse b hb, hin, Bool.or_true]
  · rw [hsame b (.inr hne)]
    refine hf.other b hdata fun hbr => ?_
    rw [hbr, hf.free] at hin
    exact Bool.noConfusion hin
  · rcases hslot j with hr | hold
    · rw [hr]
      exact .inr ⟨hf.below, hf.free⟩
    · exact .inl hold
  · refine dinode_low ho (fun b hb => (hsame b (.inl ?_)).trans (hlow b hb)) hi
    have := ho.bitmap r hf.below
    have := bmapstart_le sb r
    omega

end Aside

section Bmap
variable {sb : Superblock} {s t : Sys} {e : Fin NINODE} {i : Nat}

def Beside (sb : Superblock) (e : Fin NINODE) (s t : Sys) : Prop :=
  Aside sb e s t ∧ (t.itable e).d.size = (s.itable e).d.size

theorem Beside.refl : Beside sb e s s := ⟨.refl, rfl⟩

theorem Beside.trans {u : Sys} (h : Beside sb e s t) (h' : Beside sb e t u) : Beside sb e s u :=
  ⟨h.1.trans h'.1, h'.2.trans h.2⟩

variable (ho : sb.Ordered) (hv : (s.itable e).valid = true) (h : Sound sb s e)
include ho hv h

theorem beside_balloc {r : Nat} (htab : SameTables s t) (hr : r = 0 ∧ t.disk = s.disk ∨ r ≠ 0 ∧ Fresh sb s.disk t.disk r)
    (hlow : ∀ b < sb.bmapstart, t.disk b = s.disk b) : Beside sb e s t := by
  have how := owned_of_valid hv h
  have hit := htab.1
  refine ⟨?_, by rw [hit]⟩
  rcases hr with ⟨-, hdisk⟩ | ⟨-, hf⟩
  · refine ⟨fun _ _ => by rw [hit], by rw [hit], by rw [hit], by rw [hit], by rw [hit], ?_, ?_, ?_, ?_⟩
    · exact fun b _ hin => by rwa [hdisk]
    · exact fun b _ _ _ _ => by rw [hdisk]
    · exact fun j => .inl (by rw [hdisk, hit])
    · exact fun i _ _ => by rw [hdisk]
  · refine aside_fresh ho hf hlow (fun _ _ => by rw [hit]) (by rw [hit]) (by rw [hit]) (by rw [hit]) (by rw [hit])
      (fun j => .inr ?_) fun _ _ => rfl
    rw [hit, how.slot_fresh hf]

theorem wp_addrOrAlloc_log (hi : i < NDIRECT + 1) :
    wp (addrOrAlloc sb e i) (fun r t => Beside sb e s t ∧ (r = 0 → NoSpace sb t.disk)) (fun e _ => LogPanic e) s := by
  have how := owned_of_valid hv h
  unfold addrOrAlloc
  rw [wp_bind, wp_view, wp_ite]
  split
  · rename_i hne
    exact ⟨.refl, fun h0 => absurd h0 hne⟩
  · rename_i hz
    rw [not_not] at hz
    rw [wp_bind]
    refine wp_mono (wp_and (wp_balloc ho how.front) (wp_balloc_log ho how.front))
      (fun r t hrt => ?_) fun _ _ he => he.2
    obtain ⟨⟨htab, hr⟩, hlow, hspace⟩ := hrt
    rw [wp_bind, wp_doIf]
    refine ⟨fun hr0 => ?_, fun hr0 => ⟨beside_balloc ho hv h htab hr hlow, hspace⟩⟩
    obtain ⟨-, hf⟩ := hr.resolve_left fun hl => hr0 hl.1
    have hit := htab.1
    have hlt : r < 2 ^ 32 := by have := hf.below; have := ho.blocks; omega
    have hptr : (s.itable e).d.addr NDIRECT ≠ 0 →
        t.disk ((s.itable e).d.addr NDIRECT) = s.disk ((s.itable e).d.addr NDIRECT) := by
      intro hp
      rw [← slot_pointer] at hp ⊢
      exact how.disk_fresh hf hp
    have hslot := slot_setAddr hi hlt hr0 hz hf.zero hptr
    unfold onInode
    rw [wp_change, wp_pure]
    have hx : (t.setInode e ((t.itable e).setD ((t.itable e).d.setAddr i r))).itable e =
        (s.itable e).setD ((s.itable e).d.setAddr i r) := by rw [setInode_self, hit]
    refine ⟨⟨aside_fresh ho hf hlow (fun e' he => ?_) (by rw [hx]; rfl) (by rw [hx]; rfl) (by rw [hx]; rfl)
      (by rw [hx]; rfl)
      (fun j => ?_) fun _ _ => rfl, by rw [hx]; rfl⟩, fun h0 => absurd h0 hr0⟩
    · rw [setInode_itable, if_neg he, hit]
    · rw [hx]
      by_cases hji : j = i
      · exact .inl ((hslot j).trans (if_pos hji))
      · exact .inr ((hslot j).trans (if_neg hji))

theorem wp_bmap_log {bn : Nat} (hbn : bn < MAXFILE) :
    wp (bmap sb e bn) (fun r t => Beside sb e s t ∧ (r = 0 → NoSpace sb t.disk)) (fun e _ => LogPanic e) s := by
  unfold bmap
  rw [wp_ite]
  split
  · exact wp_addrOrAlloc_log ho hv h (by omega)
  · rename_i hdirect
    have hin : bn - NDIRECT < NINDIRECT := by unfold MAXFILE at hbn; omega
    simp only []
    rw [if_pos hin, wp_bind]
    refine wp_mono (wp_and (wp_addrOrAlloc ho hv h (Nat.lt_succ_self _)) (wp_addrOrAlloc_log ho hv h (Nat.lt_succ_self _)))
      (fun addr t hat => ?_) fun _ _ he => he.2
    obtain ⟨⟨hg, haddr⟩, hb, hspace⟩ := hat
    rw [wp_ite]
    split
    · rename_i h0
      exact ⟨hb, fun _ => hspace h0⟩
    · rename_i hne
      have hptr := haddr hne
      rw [wp_bind]
      unfold bread
      rw [wp_view, wp_ite]
      split
      · rename_i hword
        refine ⟨hb, fun h0 => absurd (UInt32.toNat_inj.mp ?_) hword⟩
        rw [h0]
        rfl
      · rename_i hz
        rw [not_not] at hz
        have how := owned_of_valid hg.valid hg.keeps.sound
        rw [wp_bind]
        refine wp_mono (wp_and (wp_balloc ho how.front) (wp_balloc_log ho how.front))
          (fun a t' hat => ?_) fun _ _ he => he.2
        obtain ⟨⟨htab, ha⟩, hlow, hspace'⟩ := hat
        rw [wp_bind, wp_doIf]
        refine ⟨fun ha0 => ?_, fun ha0 =>
          ⟨hb.trans (beside_balloc ho hg.valid hg.keeps.sound htab ha hlow), hspace'⟩⟩
        obtain ⟨-, hf⟩ := ha.resolve_left fun hl => ha0 hl.1
        rw [wp_bind, wp_view]
        refine wp_logWrite_log fun u hu hudisk => ?_
        refine ⟨hb.trans ⟨?_, by rw [hu.1, htab.1]⟩, fun h0 => absurd h0 ha0⟩
        have hit := (htab.trans hu).1
        have hpdata := (how.pointer (hptr ▸ hne)).1
        have hpdisk := how.disk_fresh hf (j := NDIRECT) (by rw [slot_pointer, hptr]; exact hne)
        rw [slot_pointer, hptr] at hpdisk
        rw [hptr] at hpdata
        have hlt : a < 2 ^ 32 := by have := hf.below; have := ho.blocks; omega
        have hslot : ∀ j, slot u.disk (t.itable e).d j =
            if j = bn - NDIRECT + (NDIRECT + 1) then a else slot t.disk (t.itable e).d j :=
          slot_putWord hin hlt (hptr ▸ hne) (by rw [hptr, hudisk, Function.update_self, hpdisk])
        refine aside_fresh ho hf hlow (fun _ _ => by rw [hit]) (by rw [hit]) (by rw [hit]) (by rw [hit]) (by rw [hit]) (fun j => ?_)
          fun b hb => ?_
        · rw [hit]
          by_cases hji : j = bn - NDIRECT + (NDIRECT + 1)
          · exact .inl ((hslot j).trans (if_pos hji))
          · exact .inr ((hslot j).trans (if_neg hji))
        · rw [hudisk]
          refine Function.update_of_ne (fun he => ?_) ..
          rcases hb with hlt | hne'
          · omega
          · exact hne' NDIRECT (by rw [slot_pointer, hptr, he])

end Bmap

section Writei
variable {sb : Superblock} {s t : Sys} {e : Fin NINODE} {src : Source}
variable (ho : sb.Ordered) (hv : (s.itable e).valid = true) (h : Sound sb s e)

include ho hv h in
theorem beside_write {bn : Nat} {x : Block} (hb : blockAt sb s e bn ≠ 0) (htab : SameTables s t)
    (hdisk : t.disk = Function.update s.disk (blockAt sb s e bn) x) : Beside sb e s t := by
  have how := owned_of_valid hv h
  have hit := htab.1
  unfold blockAt at hb hdisk
  rw [cur_of_valid hv] at hb hdisk
  obtain ⟨hslot, -⟩ := how.write_data ho (x := x) hb
  rw [← hdisk] at hslot
  rw [fileBlock_eq_slot] at hb hdisk
  obtain ⟨hdata, hsize, -⟩ := how.used _ hb
  refine ⟨⟨fun _ _ => by rw [hit], by rw [hit], by rw [hit], by rw [hit], by rw [hit], fun b hb hin => ?_, fun b _ _ _ hne => ?_,
    fun j => .inl (by rw [hit, hslot]), fun i hi _ => ?_⟩, by rw [hit]⟩
  · have := ho.bitmap b hb
    rwa [hdisk, inUse_update_of_ne (by omega)]
  · rw [hdisk]
    exact Function.update_of_ne (hne _).symm ..
  · have := ho.inodes i hi
    have := ho.bitmap _ hsize
    have := bmapstart_le sb (slot s.disk (s.itable e).d (place bn))
    rw [hdisk, dinode_update_of_ne (by omega)]

theorem write_none (x : Block) (off : Nat) (f : Nat → UInt8) : x.write off 0 f = x := funext fun _ => if_neg (by omega)

/-- How the loop of `writei` ends, `tot` bytes after `off`, with the count `r`. -/
structure Ran (sb : Superblock) (e : Fin NINODE) (src : Source) (off tot n r : Nat) (s t : Sys) : Prop where
  le : tot ≤ r
  bound : r ≤ n
  valid : (t.itable e).valid = true
  keeps : Keeps sb s e (Outside (off + tot) (r - tot)) t
  written : Written sb e src off tot r t
  beside : Beside sb e s t
  short : r ≠ n → NoSpace sb t.disk ∨ ∃ m, src.copied r m < m

include ho hv h in
theorem wp_writeiLoop_log (hwhole : src.Whole) {off n rounds tot : Nat} (htot : tot ≤ n) (hrounds : n ≤ tot + rounds)
    (hmax : off + n ≤ MAXFILE * BSIZE) :
    wp (writeiLoop sb e src n rounds tot (off + tot))
      (fun r t => r.2 = off + r.1 ∧ Ran sb e src off tot n r.1 s t) (fun e _ => LogPanic e) s := by
  have hnone : ∀ {t : Sys}, Written sb e src off tot tot t := fun i hi hi' => absurd hi' (by omega)
  induction rounds generalizing s tot with
  | zero => exact ⟨rfl, Nat.le_refl _, htot, hv, .refl h, hnone, .refl, fun hne => absurd (by simpa using hrounds) (by omega)⟩
  | succ rounds ih =>
    rw [writeiLoop, wp_ite]
    split
    · rename_i hlt
      have hBSIZE : 0 < BSIZE := by decide
      have hbn : (off + tot) / BSIZE < MAXFILE := Nat.div_lt_of_lt_mul (by rw [Nat.mul_comm]; omega)
      rw [wp_bind]
      refine wp_mono (wp_and (wp_bmap ho hv h _) (wp_bmap_log ho hv h hbn)) (fun addr t hat => ?_)
        fun _ _ he => he.2
      obtain ⟨⟨hg, haddr⟩, hb, hspace⟩ := hat
      have hk : ∀ P, Keeps sb s e P t := fun P => hg.keeps.mono fun _ _ => trivial
      rw [wp_ite]
      split
      · rename_i h0
        exact ⟨rfl, Nat.le_refl _, htot, hg.valid, hk _, hnone, hb, fun _ => .inl (hspace h0)⟩
      · rename_i hne
        have hblock := haddr hne
        subst hblock
        have hroom := Nat.mod_lt (off + tot) hBSIZE
        generalize hm : min (n - tot) (BSIZE - (off + tot) % BSIZE) = m
        rw [wp_bind]
        unfold bread
        rw [wp_view, wp_ite]
        split
        · rw [wp_bind]
          refine wp_logWrite_log fun w hw hwdisk => ?_
          obtain ⟨hk', hwrote⟩ := write_block ho hg.valid hg.keeps.sound hne (by omega) hw.1 hwdisk
          have hvw : (w.itable e).valid = true := hw.1 ▸ hg.valid
          rw [Nat.add_assoc off]
          refine wp_post (ih hvw hk'.sound (by omega) (by omega) fun i hi hi' => absurd hi' (by omega))
            fun r u hru => ⟨hru.1, ?_⟩
          have hran := hru.2
          have hle := hran.le
          refine ⟨by omega, hran.bound, hran.valid, ?_, fun i hi hir => ?_,
            (hb.trans (beside_write ho hg.valid hg.keeps.sound hne hw hwdisk)).trans hran.beside, hran.short⟩
          · refine (hk _).trans ((hk'.mono fun x hx => ?_).trans (hran.keeps.mono fun x hx => ?_)) <;> unfold Outside at * <;> omega
          · by_cases him : i < tot + m
            · -- a byte of this block, which the later rounds leave alone
              have hwt : Written sb e src off tot (tot + m) w := by
                intro i hi him
                obtain ⟨j, rfl⟩ := Nat.exists_eq_add_of_le hi
                rw [← Nat.add_assoc]
                exact hwrote j (by omega)
              exact hwt.keeps hran.keeps (fun j _ hj => .inl (by omega)) i hi him
            · exact hran.written i (by omega) hir
        · -- a fault at the first byte: nothing has been copied
          rename_i hfault
          obtain hzero := (hwhole tot m).resolve_left hfault
          rw [wp_bind, wp_change, hzero, wp_pure]
          have hdisk : (t.write (blockAt sb t e ((off + tot) / BSIZE)) ((t.disk (blockAt sb t e ((off + tot) / BSIZE))).write
              ((off + tot) % BSIZE) 0 fun i => src.byte (tot + i))) = t := by
            rw [write_none, Sys.write, Function.update_eq_self]
          rw [hdisk]
          exact ⟨rfl, Nat.le_refl _, htot, hg.valid, hk _, hnone, hb, fun _ => .inr ⟨m, Nat.not_le.mp hfault⟩⟩
    · exact ⟨rfl, Nat.le_refl _, htot, hv, .refl h, hnone, .refl, fun hne => absurd hne (by omega)⟩

include ho hv h in
theorem wp_iupdate_log : wp (iupdate sb e) (fun _ t => Beside sb e s t) (fun e _ => LogPanic e) s := by
  have how := owned_of_valid hv h
  unfold iupdate
  rw [wp_bind, wp_view, wp_bind, wp_view]
  refine wp_logWrite_log fun t ⟨hit, hft⟩ hdisk => ?_
  obtain ⟨hslot, -⟩ := how.write_inodes (x := inodeBlock sb s.disk (s.itable e).inum (s.itable e).d) ho h.inum
  rw [← hdisk] at hslot
  have hblock := ho.inodes _ h.inum
  refine ⟨⟨fun _ _ => by rw [hit], by rw [hit], by rw [hit], by rw [hit], by rw [hit], fun b hb hin => ?_, fun b hb hdata _ _ => ?_,
    fun j => .inl (by rw [hit, hslot]), fun i hi hne => ?_⟩, by rw [hit]⟩
  · have := bmapstart_le sb b
    rwa [hdisk, inUse_update_of_ne (by omega)]
  · have := ho.bitmap b hb
    have := bmapstart_le sb b
    rw [hdisk]
    exact Function.update_of_ne (by omega) ..
  · rw [hdisk]
    exact dinode_inodeBlock_ne hne

theorem aside_setSize (size : Nat) : Aside sb e s (s.setInode e ((s.itable e).setD ((s.itable e).d.setSize size))) := by
  have hslot : slot s.disk ((s.itable e).d.setSize size) = slot s.disk (s.itable e).d := slot_congr rfl fun _ => rfl
  have hx := setInode_self s e ((s.itable e).setD ((s.itable e).d.setSize size))
  refine ⟨fun e' he => ?_, by rw [hx]; rfl, by rw [hx]; rfl, by rw [hx]; rfl, by rw [hx]; rfl, fun _ _ hin => hin, fun _ _ _ _ _ => rfl,
    fun j => .inl ?_, fun _ _ _ => rfl⟩
  · rw [setInode_itable, if_neg he]
  · rw [hx]
    exact congrFun hslot j

structure Wrote (sb : Superblock) (e : Fin NINODE) (src : Source) (off n tot : Nat) (s t : Sys) : Prop where
  bound : tot ≤ n
  valid : (t.itable e).valid = true
  size : (t.itable e).d.size.toNat = max (s.itable e).d.size.toNat (off + tot)
  keeps : Keeps sb s e (Outside off tot) t
  written : Written sb e src off 0 tot t
  aside : Aside sb e s t
  short : tot ≠ n → NoSpace sb t.disk ∨ ∃ m, src.copied tot m < m

include ho hv h in
theorem wp_writei_log (hwhole : src.Whole) {off n : Nat} (hoff : off ≤ (s.itable e).d.size.toNat) (hmax : off + n ≤ MAXFILE * BSIZE) :
    wp (writei sb e src off n) (fun r t => ∃ tot : Nat, r = tot ∧ Wrote sb e src off n tot s t)
      (fun e _ => LogPanic e) s := by
  have hlt : off + n < 2 ^ 32 := by unfold MAXFILE NDIRECT NINDIRECT BSIZE at hmax; omega
  unfold writei
  rw [wp_bind, wp_view, if_neg (by rw [Nat.mod_eq_of_lt hlt]; omega), if_neg (by omega), wp_bind]
  refine wp_post (wp_writeiLoop_log ho hv h hwhole (Nat.zero_le n) (by omega) hmax) fun r t ⟨hr, hran⟩ => ?_
  obtain ⟨tot, off'⟩ := r
  simp only at hr hran
  subst hr
  obtain ⟨-, hbound, hvt, hk, hw, ⟨hside, hsize⟩, hshort⟩ := hran
  rw [Nat.add_zero, Nat.sub_zero] at hk
  have hof : (UInt32.ofNat (off + tot)).toNat = off + tot := UInt32.toNat_ofNat_of_lt' (show off + tot < 2 ^ 32 by omega)
  -- the size is brought up to date, then the inode is written
  have hend : ∀ u, Grown sb e t u → Aside sb e t u → u.disk = t.disk →
      (u.itable e).d.size.toNat = max (s.itable e).d.size.toNat (off + tot) →
      wp (iupdate sb e >>= fun _ => pure (tot : Int)) (fun r t => ∃ tot : Nat, r = tot ∧ Wrote sb e src off n tot s t)
        (fun e _ => LogPanic e) u := by
    intro u hu hsideu hdisku hsizeu
    rw [wp_bind]
    refine wp_mono (wp_and (wp_iupdate ho hu.valid hu.keeps.sound) (wp_iupdate_log ho hu.valid hu.keeps.sound))
      (fun _ w ⟨hgw, hsidew, hsizew⟩ => ?_) fun _ _ he => he.2
    have hg := hu.trans hgw
    refine ⟨tot, rfl, hbound, hg.valid, by rw [hsizew, hsizeu], hk.trans (hg.keeps.mono fun _ _ => trivial),
      hw.keeps hg.keeps fun _ _ _ => trivial, (hside.trans hsideu).trans hsidew, fun hne => ?_⟩
    refine (hshort hne).imp_left fun hspace b hb => hsidew.used b hb ?_
    rw [hdisku]
    exact hspace b hb
  rw [wp_bind, wp_view, wp_bind, wp_doIf]
  have hsize' : (t.itable e).d.size.toNat = (s.itable e).d.size.toNat := by rw [hsize]
  refine ⟨fun hgt => ?_, fun hle => ?_⟩
  · have hg := grown_setSize hvt hk.sound (show _ ≤ (UInt32.ofNat (off + tot)).toNat by omega)
    refine hend _ hg (aside_setSize _) rfl ?_
    rw [setInode_self]
    refine hof.trans ?_
    omega
  · exact hend t (.refl hvt hk.sound) .refl rfl (by omega)

end Writei

/-- Inode `inum` as the kernel has it: from the inode table if it is there, else from the disk. -/
def inodeOf (sb : Superblock) (s : Sys) (inum : Nat) : Dinode :=
  match (List.finRange NINODE).find? fun e => 0 < (s.itable e).ref && (s.itable e).valid && (s.itable e).inum == inum with
  | some e => (s.itable e).d
  | none => dinode sb s.disk inum

def Uniq (s : Sys) : Prop :=
  ∀ e e', 0 < (s.itable e).ref → 0 < (s.itable e').ref → (s.itable e).inum = (s.itable e').inum → e = e'

/-- Every file has its blocks to itself, and a block for each of its bytes. -/
structure Volume (sb : Superblock) (s : Sys) : Prop where
  uniq : Uniq s
  front : ∀ b < sb.datastart, inUse sb s.disk b = true
  used : ∀ i < sb.ninodes, ∀ j, slot s.disk (inodeOf sb s i) j ≠ 0 → sb.datastart ≤ slot s.disk (inodeOf sb s i) j ∧
    slot s.disk (inodeOf sb s i) j < sb.size ∧ inUse sb s.disk (slot s.disk (inodeOf sb s i) j) = true
  inj : ∀ i < sb.ninodes, ∀ i' < sb.ninodes, ∀ j j', slot s.disk (inodeOf sb s i) j ≠ 0 →
    slot s.disk (inodeOf sb s i) j = slot s.disk (inodeOf sb s i') j' → i = i' ∧ j = j'
  full : ∀ i < sb.ninodes, ∀ bn, bn * BSIZE < (inodeOf sb s i).size.toNat → fileBlock s.disk (inodeOf sb s i) bn ≠ 0

/-- `e` is an inode in use whose sleep-lock is held: it has been read from the disk. -/
structure Locked (sb : Superblock) (s : Sys) (e : Fin NINODE) : Prop where
  ref : 0 < (s.itable e).ref
  valid : (s.itable e).valid = true
  locked : (s.itable e).locked = true
  inum : (s.itable e).inum < sb.ninodes

section Volume
variable {sb : Superblock} {s t : Sys} {e : Fin NINODE}

theorem inodeOf_entry (h : Uniq s) (href : 0 < (s.itable e).ref) (hv : (s.itable e).valid = true) :
    inodeOf sb s (s.itable e).inum = (s.itable e).d := by
  unfold inodeOf
  split
  · rename_i e' hfind
    have hfound := List.find?_some hfind
    simp only [Bool.and_eq_true, decide_eq_true_eq, beq_iff_eq] at hfound
    rw [h e' e hfound.1.1 href hfound.2]
  · rename_i hfind
    have hnot := List.find?_eq_none.mp hfind e (List.mem_finRange e)
    simp [href, hv] at hnot

theorem Volume.inodeOf_self (h : Volume sb s) (he : Locked sb s e) : inodeOf sb s (s.itable e).inum = (s.itable e).d :=
  inodeOf_entry h.uniq he.ref he.valid

theorem Volume.sound (h : Volume sb s) (he : Locked sb s e) : Sound sb s e := by
  have hself := h.inodeOf_self he
  refine ⟨he.inum, h.front, fun j hj => ?_, fun i j hi hij => ?_⟩
  · rw [cur_of_valid he.valid, ← hself] at hj ⊢
    exact h.used _ he.inum j hj
  · rw [cur_of_valid he.valid, ← hself] at hi hij
    exact (h.inj _ he.inum _ he.inum i j hi hij).2

theorem Volume.block (h : Volume sb s) (he : Locked sb s e) {x : Nat} (hx : x < (s.itable e).d.size.toNat) :
    fileBlock s.disk (s.itable e).d (x / BSIZE) ≠ 0 := by
  have hfull := h.full _ he.inum (x / BSIZE)
  rw [h.inodeOf_self he] at hfull
  exact hfull (Nat.lt_of_le_of_lt (Nat.div_mul_le_self x BSIZE) hx)

theorem Aside.inodeOf_eq (h : Aside sb e s t) {i : Nat} (hi : i < sb.ninodes) (hne : i ≠ (s.itable e).inum) :
    inodeOf sb t i = inodeOf sb s i := by
  have htest : (fun e' => decide (0 < (t.itable e').ref) && (t.itable e').valid && (t.itable e').inum == i) =
      fun e' => decide (0 < (s.itable e').ref) && (s.itable e').valid && (s.itable e').inum == i := by
    funext e'
    by_cases he : e' = e
    · rw [he, h.ref, h.valid, h.inum]
    · rw [h.others e' he]
  unfold inodeOf
  rw [htest]
  split
  · rename_i e' hfind
    have hfound := List.find?_some hfind
    simp only [Bool.and_eq_true, decide_eq_true_eq, beq_iff_eq] at hfound
    rw [h.others e' fun he => hne (by rw [← hfound.2, he])]
  · exact h.inodes i hi hne

section
variable (hvol : Volume sb s) (he : Locked sb s e) (h : Aside sb e s t)
include hvol he h

theorem Volume.disk_other {i : Nat} (hi : i < sb.ninodes) (hne : i ≠ (s.itable e).inum) {j : Nat}
    (hj : slot s.disk (inodeOf sb s i) j ≠ 0) :
    t.disk (slot s.disk (inodeOf sb s i) j) = s.disk (slot s.disk (inodeOf sb s i) j) := by
  obtain ⟨hdata, hsize, hin⟩ := hvol.used i hi j hj
  refine h.disk _ hsize hdata hin fun k hk => hne ?_
  rw [← hvol.inodeOf_self he] at hk
  exact (hvol.inj i hi _ he.inum j k hj hk.symm).1

theorem Volume.slot_other {i : Nat} (hi : i < sb.ninodes) (hne : i ≠ (s.itable e).inum) :
    slot t.disk (inodeOf sb t i) = slot s.disk (inodeOf sb s i) := by
  rw [h.inodeOf_eq hi hne]
  refine slot_congr rfl fun hp => ?_
  have hptr : slot s.disk (inodeOf sb s i) NDIRECT = (inodeOf sb s i).addr NDIRECT := slot_pointer
  rw [← hptr] at hp ⊢
  exact hvol.disk_other he h hi hne hp

theorem Volume.content_other {i : Nat} (hi : i < sb.ninodes) (hne : i ≠ (s.itable e).inum) :
    content t.disk (inodeOf sb t i) = content s.disk (inodeOf sb s i) := by
  have hslot := hvol.slot_other he h hi hne
  unfold content
  rw [h.inodeOf_eq hi hne] at hslot ⊢
  refine List.map_congr_left fun x hx => ?_
  have hb := hvol.full i hi (x / BSIZE) (Nat.lt_of_le_of_lt (Nat.div_mul_le_self x BSIZE) (List.mem_range.mp hx))
  unfold fileByte
  rw [fileBlock_eq_slot, fileBlock_eq_slot, hslot]
  rw [fileBlock_eq_slot] at hb
  rw [hvol.disk_other he h hi hne hb]

end

theorem content_getElem? (disk : Disk) (d : Dinode) (x : Nat) :
    (content disk d)[x]? = if x < d.size.toNat then some (fileByte disk d x) else none := by
  unfold content
  rw [List.getElem?_map]
  split
  · rename_i hx
    rw [List.getElem?_range hx]
    rfl
  · rename_i hx
    rw [List.getElem?_eq_none (by simpa using hx)]
    rfl

theorem length_content (disk : Disk) (d : Dinode) : (content disk d).length = d.size.toNat := by simp [content]

def splice (l : List UInt8) (off : Nat) (new : List UInt8) : List UInt8 := l.take off ++ new ++ l.drop (off + new.length)

theorem splice_getElem? {l new : List UInt8} {off : Nat} (h : off ≤ l.length) (x : Nat) :
    (splice l off new)[x]? = if off ≤ x ∧ x < off + new.length then new[x - off]? else l[x]? := by
  have htake : (l.take off).length = off := List.length_take_of_le h
  unfold splice
  rw [List.append_assoc]
  by_cases hx : x < off
  · rw [List.getElem?_append_left (by omega), if_neg (by omega), List.getElem?_take_of_lt hx]
  · rw [List.getElem?_append_right (by omega), htake]
    by_cases hx' : x < off + new.length
    · rw [List.getElem?_append_left (by omega), if_pos (by omega)]
    · rw [List.getElem?_append_right (by omega), if_neg (by omega), List.getElem?_drop]
      congr 1
      omega

section
variable {src : Source} {off n tot : Nat} (hvol : Volume sb s) (he : Locked sb s e)
  (hoff : off ≤ (s.itable e).d.size.toNat) (h : Wrote sb e src off n tot s t)
include hvol he h

theorem Wrote.block {x : Nat} (hx : x < max (s.itable e).d.size.toNat (off + tot)) :
    (off ≤ x ∧ x < off + tot → fileByte t.disk (t.itable e).d x = src.byte (x - off)) ∧
    (¬(off ≤ x ∧ x < off + tot) → x < (s.itable e).d.size.toNat →
      fileByte t.disk (t.itable e).d x = fileByte s.disk (s.itable e).d x) := by
  refine ⟨fun hin => ?_, fun hout hlt => ?_⟩
  · obtain ⟨i, rfl⟩ := Nat.exists_eq_add_of_le hin.1
    have hbyte := (h.written i (Nat.zero_le i) (by omega)).2
    unfold byteAt at hbyte
    rw [cur_of_valid h.valid] at hbyte
    rw [hbyte, Nat.add_sub_cancel_left]
  · have hb := hvol.block he hlt
    have hbyte := h.keeps.byte x (by unfold Outside; omega)
    unfold byteAt blockAt at hbyte
    rw [cur_of_valid h.valid, cur_of_valid he.valid] at hbyte
    exact hbyte hb

include hoff in
theorem Wrote.content :
    content t.disk (t.itable e).d = splice (content s.disk (s.itable e).d) off ((List.range tot).map src.byte) := by
  refine List.ext_getElem? fun x => ?_
  rw [splice_getElem? (by rwa [length_content]), content_getElem?, content_getElem?, List.length_map, List.length_range,
    h.size]
  by_cases hin : off ≤ x ∧ x < off + tot
  · rw [if_pos hin, if_pos (by omega), (h.block hvol he (by omega)).1 hin, List.getElem?_map,
      List.getElem?_range (by omega)]
    rfl
  · rw [if_neg hin]
    by_cases hx : x < (s.itable e).d.size.toNat
    · rw [if_pos hx, if_pos (by omega), (h.block hvol he (by omega)).2 hin hx]
    · rw [if_neg hx, if_neg (by omega)]

omit hvol he in
theorem Wrote.uniq (hu : Uniq s) : Uniq t := by
  have hsame : ∀ d, (t.itable d).ref = (s.itable d).ref ∧ (t.itable d).inum = (s.itable d).inum := fun d => by
    by_cases hd : d = e
    · rw [hd]
      exact ⟨h.aside.ref, h.aside.inum⟩
    · rw [h.aside.others d hd]
      exact ⟨rfl, rfl⟩
  intro d d' hd hd' heq
  rw [(hsame d).1] at hd
  rw [(hsame d').1] at hd'
  rw [(hsame d).2, (hsame d').2] at heq
  exact hu d d' hd hd' heq

include hoff in
theorem Wrote.volume : Volume sb t := by
  have huniq := h.uniq hvol.uniq
  have hown := owned_of_valid h.valid h.keeps.sound
  have hself : inodeOf sb t (s.itable e).inum = (t.itable e).d := by
    rw [← h.aside.inum]
    exact inodeOf_entry huniq (by rw [h.aside.ref]; exact he.ref) h.valid
  have hother : ∀ i < sb.ninodes, i ≠ (s.itable e).inum → slot t.disk (inodeOf sb t i) = slot s.disk (inodeOf sb s i) :=
    fun i hi hne => hvol.slot_other he h.aside hi hne
  -- a new block of the file was free, so it is nobody else's
  have hapart : ∀ i < sb.ninodes, i ≠ (s.itable e).inum → ∀ j k, slot s.disk (inodeOf sb s i) j ≠ 0 →
      slot s.disk (inodeOf sb s i) j ≠ slot t.disk (t.itable e).d k := by
    intro i hi hne j k hj heq
    rcases h.aside.own k with hold | ⟨-, hfree⟩
    · rw [hold, ← hvol.inodeOf_self he] at heq
      exact hne (hvol.inj i hi _ he.inum j k hj heq).1
    · rw [← heq, (hvol.used i hi j hj).2.2] at hfree
      exact Bool.noConfusion hfree
  refine ⟨huniq, hown.front, fun i hi j hj => ?_, fun i hi i' hi' j j' hj heq => ?_, fun i hi bn hbn => ?_⟩
  · by_cases hie : i = (s.itable e).inum
    · rw [hie, hself] at hj ⊢
      exact hown.used j hj
    · rw [hother i hi hie] at hj ⊢
      obtain ⟨hdata, hsize, hin⟩ := hvol.used i hi j hj
      exact ⟨hdata, hsize, h.aside.used _ hsize hin⟩
  · by_cases hie : i = (s.itable e).inum <;> by_cases hie' : i' = (s.itable e).inum
    · rw [hie, hself] at hj
      rw [hie, hie', hself] at heq
      exact ⟨hie.trans hie'.symm, hown.inj j j' hj heq⟩
    · rw [hie, hself] at hj
      rw [hie, hself, hother i' hi' hie'] at heq
      exact absurd heq.symm (hapart i' hi' hie' j' j (heq ▸ hj))
    · rw [hother i hi hie] at hj
      rw [hie', hself, hother i hi hie] at heq
      exact absurd heq (hapart i hi hie j j' hj)
    · rw [hother i hi hie] at hj
      rw [hother i hi hie, hother i' hi' hie'] at heq
      exact hvol.inj i hi i' hi' j j' hj heq
  · by_cases hie : i = (s.itable e).inum
    · rw [hie, hself] at hbn ⊢
      rw [h.size] at hbn
      have hBSIZE : 0 < BSIZE := by decide
      by_cases hold : bn * BSIZE < (s.itable e).d.size.toNat
      · have hb := hvol.block he hold
        rw [Nat.mul_div_cancel _ hBSIZE] at hb
        have hkeep := h.keeps.block bn
        unfold blockAt at hkeep
        rw [cur_of_valid h.valid, cur_of_valid he.valid] at hkeep
        rw [hkeep hb]
        exact hb
      · -- the block starts in what has been written
        obtain ⟨k, hk⟩ := Nat.exists_eq_add_of_le (show off ≤ bn * BSIZE by omega)
        have hb := (h.written k (Nat.zero_le k) (by omega)).1
        unfold blockAt at hb
        rwa [← hk, Nat.mul_div_cancel _ hBSIZE, cur_of_valid h.valid] at hb
    · rw [fileBlock_eq_slot, hother i hi hie, ← fileBlock_eq_slot]
      rw [h.aside.inodeOf_eq hi hie] at hbn
      exact hvol.full i hi bn hbn

end

def readBytes (l : List UInt8) (off n : Nat) : List UInt8 :=
  if l.length < off ∨ 2 ^ 32 ≤ off + n then [] else (l.drop off).take n

theorem slice_eq_content (off n : Nat) : slice s e off (readLen (s.itable e).d.size.toNat off n) =
    ((content s.disk (s.itable e).d).drop off).take n := by
  refine List.ext_getElem? fun x => ?_
  unfold slice readLen
  rw [List.getElem?_map, List.getElem?_take, List.getElem?_drop, content_getElem?]
  by_cases hx : x < min n ((s.itable e).d.size.toNat - off)
  · rw [List.getElem?_range hx, if_pos (by omega), if_pos (by omega)]
    rfl
  · rw [List.getElem?_eq_none (by rw [List.length_range]; omega)]
    by_cases hn : x < n
    · rw [if_pos hn, if_neg (by omega)]
      rfl
    · rw [if_neg hn]
      rfl

theorem wp_readi_full (hfull : ∀ x < (s.itable e).d.size.toNat, fileBlock s.disk (s.itable e).d (x / BSIZE) ≠ 0) {off n : Nat}
    (hoff : off < 2 ^ 32) (hn : n < 2 ^ 32) :
    wp (readi sb e Sink.kernel off n) (fun r t =>
      r = (((readBytes (content s.disk (s.itable e).d) off n).length : Int), readBytes (content s.disk (s.itable e).d) off n) ∧
        t = s) (fun _ _ => False) s := by
  unfold readBytes
  rw [length_content]
  by_cases href : (s.itable e).d.size.toNat < off ∨ 2 ^ 32 ≤ off + n
  · unfold readi
    rw [wp_bind, wp_view, if_pos href]
    simp only
    rw [if_pos]
    · exact ⟨rfl, rfl⟩
    · exact href.imp id fun hwrap => by omega
  · rw [if_neg href, not_or] at *
    have hc : Covered s e off (readLen (s.itable e).d.size.toNat off n) := fun x hx hx' =>
      hfull x (by unfold readLen at hx'; omega)
    refine wp_post (wp_readi (by omega) hc) fun r t ⟨hr, ht⟩ => ⟨?_, ht⟩
    rw [hr, slice_eq_content, List.length_take, List.length_drop, length_content]
    rfl

theorem wp_readi_content (hvol : Volume sb s) (he : Locked sb s e) {off n : Nat} (hoff : off < 2 ^ 32) (hn : n < 2 ^ 32) :
    wp (readi sb e Sink.kernel off n) (fun r t =>
      r = (((readBytes (content s.disk (s.itable e).d) off n).length : Int), readBytes (content s.disk (s.itable e).d) off n) ∧
        t = s) (fun _ _ => False) s :=
  wp_readi_full (fun _ hx => hvol.block he hx) hoff hn

end Volume

/-! ### A file is an array of bytes -/

def Refused (size off n : Nat) : Prop := size < off ∨ 2 ^ 32 ≤ off + n ∨ MAXFILE * BSIZE < off + n

instance (size off n : Nat) : Decidable (Refused size off n) := inferInstanceAs (Decidable (_ ∨ _ ∨ _))

section
variable {sb : Superblock} {s : Sys} {e : Fin NINODE}

theorem wp_writei_refused (sb : Superblock) (src : Source) {off n : Nat} (hoff : off < 2 ^ 32) (hn : n < 2 ^ 32)
    (h : Refused (s.itable e).d.size.toNat off n) :
    wp (writei sb e src off n) (fun r t => r = -1 ∧ t = s) (fun _ _ => False) s := by
  unfold writei
  rw [wp_bind, wp_view]
  by_cases hfirst : off > (s.itable e).d.size.toNat ∨ (off + n) % 2 ^ 32 < off
  · rw [if_pos hfirst]
    exact ⟨rfl, rfl⟩
  · have hmax : off + n > MAXFILE * BSIZE := by
      unfold Refused at h
      omega
    rw [if_neg hfirst, if_pos hmax]
    exact ⟨rfl, rfl⟩

end

/-! A volume with one file of 30 blocks: as many as the log takes. -/

namespace Thirty

def sb : Superblock := ⟨80, 46, 2, 30, 2, 32, 33⟩

def disk : Disk := fun b =>
  if b = 33 then Bytes.fill 255 else if b = 34 then putWords Bytes.zero 0 (fun i => UInt32.ofNat (47 + i)) 18 else Bytes.zero

def file : Dinode := ⟨T_FILE, 0, 0, 1, 30720, fun i => if i.val < 12 then UInt32.ofNat (35 + i.val) else 34⟩

def sys : Sys where
  disk := disk
  lh := []
  outstanding := 1
  itable e := if e.val = 0 then ⟨1, 1, true, true, file⟩ else ⟨0, 0, false, false, Dinode.zero⟩
  ftable _ := ⟨.none, 0, false, false, 0, 0, 0, 0⟩
  proc _ := ⟨fun _ => none, none⟩
  pipe _ := none
  ghost := ⟨[], true, [], fun _ => 0, fun _ _ => 0⟩

theorem ordered : sb.Ordered where
  inodes i hi := by
    unfold Superblock.IBLOCK IPB BSIZE sb at *
    simp only at *
    omega
  bitmap b hb := by
    unfold Superblock.BBLOCK Superblock.datastart BPB BSIZE sb at *
    simp only at *
    omega
  root := by decide
  inum := by decide
  blocks := by decide

theorem evaluated : (∀ b < 80, inUse sb disk b = true) ∧
    (∀ j < 269, slot disk file j = if j < 12 then 35 + j else if j = 12 then 34 else if j < 31 then 34 + j else 0) ∧
    ((List.finRange NINODE).find? (fun e => 0 < (sys.itable e).ref && (sys.itable e).valid &&
      (sys.itable e).inum == 1) = some ⟨0, by decide⟩) ∧
    ((List.finRange NINODE).find? (fun e => 0 < (sys.itable e).ref && (sys.itable e).valid &&
      (sys.itable e).inum == 0) = none) ∧
    ∀ e : Fin NINODE, 0 < (sys.itable e).ref → e.val = 0 := by
  decide +kernel

theorem inUse_all (b : Nat) (hb : b < sb.size) : inUse sb disk b = true :=
  evaluated.1 b hb

theorem slot_file (j : Nat) : slot disk file j = if j < 12 then 35 + j else if j = 12 then 34 else if j < 31 then 34 + j else 0 := by
  by_cases hj : j < 269
  · exact evaluated.2.1 j hj
  · rw [if_neg (by omega), if_neg (by omega), if_neg (by omega)]
    unfold slot NDIRECT NINDIRECT BSIZE
    rw [if_neg (by omega), if_neg (by omega)]

theorem inodeOf_one : inodeOf sb sys 1 = file := by
  unfold inodeOf
  rw [evaluated.2.2.1]
  rfl

theorem slot_zero (j : Nat) : slot disk (inodeOf sb sys 0) j = 0 ∧ (inodeOf sb sys 0).size = 0 := by
  have hzero : ∀ o k, Bytes.le (Bytes.zero : Block) o k = 0 := fun o k => Bytes.le_zero ..
  have hinode : inodeOf sb sys 0 = Dinode.decode Bytes.zero 0 := by
    unfold inodeOf
    rw [evaluated.2.2.2.1]
    rfl
  have haddr : ∀ i, (inodeOf sb sys 0).addr i = 0 := fun i => by
    rw [hinode]
    unfold Dinode.addr Dinode.decode uint
    split
    · simp only [hzero]
      rfl
    · rfl
  refine ⟨?_, ?_⟩
  · unfold slot
    rw [haddr, haddr]
    simp
  · rw [hinode]
    unfold Dinode.decode uint
    simp only [hzero]
    rfl

theorem two_inodes {i : Nat} (hi : i < sb.ninodes) : i = 0 ∨ i = 1 := by
  unfold sb at hi
  simp only at hi
  omega

theorem volume : Volume sb sys where
  uniq := by
    intro e e' he he' _
    have hone := evaluated.2.2.2.2
    exact Fin.ext ((hone e he).trans (hone e' he').symm)
  front b hb := inUse_all b (Nat.lt_of_lt_of_le hb (by decide))
  used i hi j hj := by
    rcases two_inodes hi with rfl | rfl
    · exact absurd (slot_zero j).1 hj
    · have hs := slot_file j
      rw [inodeOf_one] at hj ⊢
      have hlt : 34 ≤ slot disk file j ∧ slot disk file j < 80 := by
        change slot disk file j ≠ 0 at hj
        split at hs
        · omega
        · split at hs
          · omega
          · split at hs <;> omega
      exact ⟨hlt.1, hlt.2, inUse_all _ hlt.2⟩
  inj i hi i' hi' j j' hj heq := by
    rcases two_inodes hi with rfl | rfl
    · exact absurd (slot_zero j).1 hj
    rcases two_inodes hi' with rfl | rfl
    · rw [show slot sys.disk (inodeOf sb sys 0) j' = 0 from (slot_zero j').1] at heq
      exact absurd heq hj
    refine ⟨rfl, ?_⟩
    rw [inodeOf_one] at hj heq
    change slot disk file j ≠ 0 at hj
    change slot disk file j = slot disk file j' at heq
    rw [slot_file] at hj
    rw [slot_file, slot_file] at heq
    grind
  full i hi bn hbn := by
    rcases two_inodes hi with rfl | rfl
    · rw [(slot_zero 0).2] at hbn
      exact absurd hbn (Nat.not_lt_zero _)
    · rw [inodeOf_one] at hbn ⊢
      have hlt : bn < 30 := by
        have : file.size.toNat = 30720 := rfl
        rw [this] at hbn
        unfold BSIZE at hbn
        omega
      rw [fileBlock_eq_slot]
      change slot disk file (place bn) ≠ 0
      rw [slot_file]
      unfold place NDIRECT
      split <;> grind

theorem locked : Locked sb sys 0 := ⟨by decide, rfl, rfl, by decide⟩

end Thirty

end Xv6.Fs
