import Xv6.Fs.Inode

/-! The blocks and the contents of one file whose blocks are data blocks in use, each in one position. -/

namespace Xv6.Fs
open Lib

def exec {α : Type} (m : M α) (s : Sys) : Except Stop (α × Sys) :=
  match m s with
  | .ok a t => .ok (a, t)
  | .error e _ => .error e

theorem wp_exec {α : Type} {m : M α} {Q : α → Sys → Prop} {s t : Sys} {a : α} (h : wp m Q (fun _ _ => True) s)
    (hm : exec m s = .ok (a, t)) : Q a t := by
  unfold exec at hm
  unfold wp at h
  split at hm
  · rename_i heq
    rw [heq] at h
    cases hm
    exact h
  · exact nomatch hm

theorem exec_of_wp {α : Type} {m : M α} {Q : α → Sys → Prop} {s : Sys} (h : wp m Q (fun _ _ => False) s) :
    ∃ a t, exec m s = .ok (a, t) ∧ Q a t := by
  unfold wp at h
  unfold exec
  split at h
  · rename_i heq
    rw [heq]
    exact ⟨_, _, rfl, h⟩
  · exact h.elim

section Slots
variable (disk : Disk) (d : Dinode)

/-- The address at position `j` of a file: direct addresses, indirect pointer, entries of the indirect block. -/
def slot (j : Nat) : Nat :=
  if j < NDIRECT + 1 then d.addr j
  else if j - (NDIRECT + 1) < NINDIRECT ∧ d.addr NDIRECT ≠ 0 then
    (word (disk (d.addr NDIRECT)) (j - (NDIRECT + 1))).toNat
  else 0

def place (bn : Nat) : Nat := if bn < NDIRECT then bn else bn + 1

theorem place_ne (bn : Nat) : place bn ≠ NDIRECT := by
  unfold place
  split <;> omega

theorem place_inj {a b : Nat} (h : place a = place b) : a = b := by
  unfold place at h
  split at h <;> split at h <;> omega

theorem fileBlock_eq_slot (bn : Nat) : fileBlock disk d bn = slot disk d (place bn) := by
  unfold fileBlock slot place
  by_cases hbn : bn < NDIRECT
  · rw [if_pos hbn, if_pos hbn, if_pos (by omega)]
  · rw [if_neg hbn, if_neg hbn, if_neg (show ¬bn + 1 < NDIRECT + 1 by omega), Nat.add_sub_add_right]

variable {disk d} {disk' : Disk} {d' : Dinode} {i j r : Nat}

theorem slot_direct (hj : j < NDIRECT + 1) : slot disk d j = d.addr j := if_pos hj

theorem slot_pointer : slot disk d NDIRECT = d.addr NDIRECT := slot_direct (by omega)

theorem slot_entry (hi : i < NINDIRECT) (hp : d.addr NDIRECT ≠ 0) :
    slot disk d (i + (NDIRECT + 1)) = (word (disk (d.addr NDIRECT)) i).toNat := by
  unfold slot
  rw [if_neg (by omega), Nat.add_sub_cancel, if_pos ⟨hi, hp⟩]

theorem slot_congr (hd : d'.addr = d.addr) (hp : d.addr NDIRECT ≠ 0 → disk' (d.addr NDIRECT) = disk (d.addr NDIRECT)) :
    slot disk' d' = slot disk d := by
  funext j
  unfold slot
  rw [hd]
  by_cases hz : d.addr NDIRECT = 0
  · simp [hz]
  · rw [hp hz]

theorem addr_setAddr (hi : i < NDIRECT + 1) (hr : r < 2 ^ 32) (j : Nat) :
    (d.setAddr i r).addr j = if j = i then r else d.addr j := by
  unfold Dinode.addr Dinode.setAddr
  by_cases hj : j < NDIRECT + 1
  · by_cases hji : j = i
    · simp [hji, hi, UInt32.toNat_ofNat_of_lt' hr]
    · simp [hj, hji]
  · rw [dif_neg hj, dif_neg hj, if_neg (by omega)]

theorem slot_setAddr (hi : i < NDIRECT + 1) (hr : r < 2 ^ 32) (hr0 : r ≠ 0) (h0 : d.addr i = 0)
    (hzero : disk' r = Bytes.zero) (hp : d.addr NDIRECT ≠ 0 → disk' (d.addr NDIRECT) = disk (d.addr NDIRECT)) (j : Nat) :
    slot disk' (d.setAddr i r) j = if j = i then r else slot disk d j := by
  by_cases hj : j < NDIRECT + 1
  · rw [slot_direct hj, slot_direct hj, addr_setAddr hi hr]
  · rw [if_neg (by omega)]
    unfold slot
    rw [if_neg hj, if_neg hj, addr_setAddr hi hr]
    by_cases hin : NDIRECT = i
    · subst hin
      simp [hzero, hr0, h0]
    · rw [if_neg hin]
      by_cases hz : d.addr NDIRECT = 0
      · simp [hz]
      · rw [hp hz]

theorem slot_putWord (hi : i < NINDIRECT) (hr : r < 2 ^ 32) (hp : d.addr NDIRECT ≠ 0)
    (hput : disk' (d.addr NDIRECT) = putWord (disk (d.addr NDIRECT)) i (UInt32.ofNat r)) (j : Nat) :
    slot disk' d j = if j = i + (NDIRECT + 1) then r else slot disk d j := by
  by_cases hj : j < NDIRECT + 1
  · rw [slot_direct hj, slot_direct hj, if_neg (by omega)]
  · unfold slot
    rw [if_neg hj, if_neg hj, hput]
    by_cases hji : j = i + (NDIRECT + 1)
    · rw [if_pos hji, hji, Nat.add_sub_cancel, if_pos ⟨hi, hp⟩, word_putWord hi, UInt32.toNat_ofNat_of_lt' hr]
    · rw [if_neg hji, word_putWord_ne (by omega)]

end Slots

/-! ### Owning blocks -/

theorem bmapstart_le (sb : Superblock) (b : Nat) : sb.bmapstart ≤ sb.BBLOCK b := Nat.le_add_left ..

section Owned
variable (sb : Superblock) (disk : Disk) (d : Dinode)

/-- The file has its blocks to itself: data blocks in use, each in one position. -/
structure Owned : Prop where
  front : ∀ b < sb.datastart, inUse sb disk b = true
  used : ∀ j, slot disk d j ≠ 0 →
    sb.datastart ≤ slot disk d j ∧ slot disk d j < sb.size ∧ inUse sb disk (slot disk d j) = true
  inj : ∀ i j, slot disk d i ≠ 0 → slot disk d i = slot disk d j → i = j

structure Fresh (disk' : Disk) (r : Nat) : Prop where
  data : sb.datastart ≤ r
  below : r < sb.size
  free : inUse sb disk r = false
  zero : disk' r = Bytes.zero
  inUse : ∀ b < sb.size, inUse sb disk' b = (decide (b = r) || inUse sb disk b)
  other : ∀ b, sb.datastart ≤ b → b ≠ r → disk' b = disk b

variable {sb disk d} {disk' : Disk} {d' : Dinode} {i j r n : Nat} {x : Block}

namespace Owned

theorem pointer (h : Owned sb disk d) (hp : d.addr NDIRECT ≠ 0) :
    sb.datastart ≤ d.addr NDIRECT ∧ d.addr NDIRECT < sb.size ∧ inUse sb disk (d.addr NDIRECT) = true := by
  have := h.used NDIRECT
  rw [slot_pointer] at this
  exact this hp

theorem congr (h : Owned sb disk d) (hs : slot disk' d' = slot disk d)
    (hu : ∀ b < sb.size, inUse sb disk b = true → inUse sb disk' b = true) : Owned sb disk' d' where
  front b hb := hu b (by unfold Superblock.datastart at hb; omega) (h.front b hb)
  used j hj := by
    rw [hs] at hj ⊢
    obtain ⟨hlo, hhi, hin⟩ := h.used j hj
    exact ⟨hlo, hhi, hu _ hhi hin⟩
  inj i j hi hij := by
    rw [hs] at hi hij
    exact h.inj i j hi hij

theorem put (h : Owned sb disk d) (hs : ∀ j, slot disk' d' j = if j = i then r else slot disk d j)
    (hu : ∀ b < sb.size, inUse sb disk' b = (decide (b = r) || inUse sb disk b)) (hdata : sb.datastart ≤ r)
    (hr : r < sb.size) (hfree : inUse sb disk r = false) : Owned sb disk' d' := by
  have hold : ∀ j, slot disk d j ≠ 0 → slot disk d j ≠ r := by
    intro j hj hjr
    obtain ⟨-, -, hin⟩ := h.used j hj
    rw [hjr, hfree] at hin
    exact Bool.noConfusion hin
  refine ⟨fun b hb => ?_, fun j hj => ?_, fun j k hj hjk => ?_⟩
  · rw [hu b (by unfold Superblock.datastart at hb; omega), h.front b hb, Bool.or_true]
  · rw [hs] at hj ⊢
    by_cases hji : j = i
    · rw [if_pos hji, hu r hr, decide_eq_true rfl, Bool.true_or]
      exact ⟨hdata, hr, rfl⟩
    · rw [if_neg hji] at hj ⊢
      obtain ⟨hlo, hhi, hin⟩ := h.used j hj
      rw [hu _ hhi, hin, Bool.or_true]
      exact ⟨hlo, hhi, rfl⟩
  · rw [hs] at hj
    rw [hs, hs] at hjk
    by_cases hji : j = i <;> by_cases hki : k = i
    · rw [hji, hki]
    · rw [if_pos hji] at hj hjk
      rw [if_neg hki] at hjk
      exact absurd hjk.symm (hold k (hjk ▸ hj))
    · rw [if_neg hji] at hj hjk
      rw [if_pos hki] at hjk
      exact absurd hjk (hold j hj)
    · rw [if_neg hji] at hj hjk
      rw [if_neg hki] at hjk
      exact h.inj j k hj hjk

theorem write_data (h : Owned sb disk d) (ho : sb.Ordered) {bn : Nat} (hb : fileBlock disk d bn ≠ 0) :
    slot (Function.update disk (fileBlock disk d bn) x) d = slot disk d ∧
    Owned sb (Function.update disk (fileBlock disk d bn) x) d := by
  rw [fileBlock_eq_slot] at hb ⊢
  obtain ⟨hdata, -, -⟩ := h.used _ hb
  have hs : slot (Function.update disk (slot disk d (place bn)) x) d = slot disk d := by
    refine slot_congr rfl fun hp => Function.update_of_ne (fun he => ?_) _ _
    rw [← slot_pointer ] at he hp
    exact place_ne bn (h.inj _ _ hp he).symm
  refine ⟨hs, h.congr hs fun b hb hin => ?_⟩
  have := ho.bitmap b hb
  rwa [inUse_update_of_ne (by omega)]

theorem write_inodes (h : Owned sb disk d) (ho : sb.Ordered) {inum : Nat} (hi : inum < sb.ninodes) :
    slot (Function.update disk (sb.IBLOCK inum) x) d = slot disk d ∧
    Owned sb (Function.update disk (sb.IBLOCK inum) x) d := by
  have hlt := ho.inodes inum hi
  have hs : slot (Function.update disk (sb.IBLOCK inum) x) d = slot disk d := by
    refine slot_congr rfl fun hp => Function.update_of_ne ?_ _ _
    obtain ⟨hdata, hsize, -⟩ := h.pointer hp
    have := ho.bitmap _ hsize
    have := bmapstart_le sb (d.addr NDIRECT)
    omega
  refine ⟨hs, h.congr hs fun b _ hin => ?_⟩
  have := bmapstart_le sb b
  rwa [inUse_update_of_ne (by omega)]

variable (hf : Fresh sb disk disk' r)
include hf

theorem slot_fresh (h : Owned sb disk d) : slot disk' d = slot disk d := by
  refine slot_congr rfl fun hp => ?_
  obtain ⟨hdata, -, hin⟩ := h.pointer hp
  refine hf.other _ hdata fun he => ?_
  rw [he, hf.free] at hin
  exact Bool.noConfusion hin

theorem fresh (h : Owned sb disk d) : Owned sb disk' d :=
  h.congr (h.slot_fresh hf) fun b hb hin => by rw [hf.inUse b hb, hin, Bool.or_true]

theorem disk_fresh (h : Owned sb disk d) (hj : slot disk d j ≠ 0) : disk' (slot disk d j) = disk (slot disk d j) := by
  obtain ⟨hdata, -, hin⟩ := h.used j hj
  refine hf.other _ hdata fun he => ?_
  rw [he, hf.free] at hin
  exact Bool.noConfusion hin

end Owned

end Owned

section Balloc
variable {sb : Superblock} {s : Sys}

theorem freeBit_spec {x : Block} {b size rounds bi i : Nat} (h : freeBit x b size rounds bi = some i) :
    b + i < size ∧ testBit x i = false ∧ i < bi + rounds := by
  induction rounds generalizing bi with
  | zero => exact nomatch h
  | succ rounds ih =>
    rw [freeBit] at h
    split at h
    · split at h
      · obtain ⟨hlt, hclear, hi⟩ := ih h
        exact ⟨hlt, hclear, by omega⟩
      · obtain rfl := Option.some.inj h
        refine ⟨‹_›, Bool.not_eq_true _ ▸ ‹¬_›, by omega⟩
    · exact nomatch h

def SameTables (s t : Sys) : Prop := t.itable = s.itable ∧ t.ftable = s.ftable

theorem SameTables.trans {t u : Sys} (h : SameTables s t) (h' : SameTables t u) : SameTables s u :=
  ⟨h'.1.trans h.1, h'.2.trans h.2⟩

theorem wp_logWrite {b : Nat} {x : Block} {Q : Unit → Sys → Prop}
    (h : ∀ t, SameTables s t → t.disk = Function.update s.disk b x → Q () t) : wp (logWrite sb b x) Q (fun _ _ => True) s := by
  unfold logWrite
  simp only [wp_bind, wp_view, wp_stopIf, wp_change, implies_true, true_and]
  intro _ _
  exact h _ ⟨rfl, rfl⟩ rfl

theorem fresh_of_clear (ho : sb.Ordered) {disk : Disk} (hfront : ∀ b < sb.datastart, inUse sb disk b = true) {r : Nat}
    (hr : r < sb.size) (hfree : inUse sb disk r = false) :
    Fresh sb disk (Function.update (Function.update disk (sb.BBLOCK r) (setBit (disk (sb.BBLOCK r)) (r % BPB))) r
      Bytes.zero) r := by
  have hdata : sb.datastart ≤ r := by
    by_contra hlt
    rw [hfront r (by omega)] at hfree
    exact Bool.noConfusion hfree
  refine ⟨hdata, hr, hfree, Function.update_self .., fun b hb => ?_, fun b hb hbr => ?_⟩
  · have := ho.bitmap b hb
    rw [inUse_update_of_ne (by omega), inUse_setBit]
  · have := ho.bitmap r hr
    rw [Function.update_of_ne hbr, Function.update_of_ne (by omega)]

theorem wp_balloc (ho : sb.Ordered) (hfront : ∀ b < sb.datastart, inUse sb s.disk b = true) :
    wp (balloc sb) (fun r t => SameTables s t ∧ (r = 0 ∧ t.disk = s.disk ∨ r ≠ 0 ∧ Fresh sb s.disk t.disk r))
      (fun _ _ => True) s := by
  unfold balloc
  rw [wp_bind]
  have hBPB : 0 < BPB := by decide
  refine wp_forUp (I := fun a t => t = s ∧ a % BPB = 0) hBPB ⟨rfl, Nat.zero_mod _⟩ ?_ ?_
  · rintro a t ha ⟨rfl, hmod⟩
    have hsize := ho.blocks
    rw [wp_bind]
    unfold bread
    rw [wp_view]
    split
    · rename_i bi hbi
      obtain ⟨hlt, hclear, hbound⟩ := freeBit_spec hbi
      -- bit `bi` of this block of the free map is the bit of block `a + bi`
      have hblock : sb.BBLOCK (a + bi) = sb.BBLOCK a := by
        unfold Superblock.BBLOCK
        unfold BPB BSIZE at *
        omega
      have hbit : (a + bi) % BPB = bi := by
        rw [Nat.add_mod, hmod, Nat.zero_add, Nat.mod_mod, Nat.mod_eq_of_lt (by omega)]
      have hfree : inUse sb t.disk (a + bi) = false := by
        unfold inUse
        rw [hblock, hbit]
        exact hclear
      have hf := fresh_of_clear ho hfront hlt hfree
      rw [hblock, hbit] at hf
      rw [wp_bind]
      refine wp_logWrite fun u hu hudisk => ?_
      rw [wp_bind]
      refine wp_logWrite fun w hw hwdisk => ?_
      rw [← hudisk, ← hwdisk] at hf
      refine ⟨hu.trans hw, .inr ⟨?_, hf⟩⟩
      have := ho.bitmap _ hlt
      have := hf.data
      simp only [Option.getD_some]
      omega
    · refine ⟨?_, rfl, ?_⟩
      · unfold BPB BSIZE
        omega
      · rw [Nat.add_mod_right, hmod]
  · rintro a t _ ⟨rfl, -⟩
    exact ⟨⟨rfl, rfl⟩, .inl ⟨rfl, rfl⟩⟩

end Balloc

section Entry
variable (sb : Superblock) (s : Sys) (e : Fin NINODE)

def cur : Dinode := if (s.itable e).valid then (s.itable e).d else dinode sb s.disk (s.itable e).inum

def blockAt (bn : Nat) : Nat := fileBlock s.disk (cur sb s e) bn

def byteAt (off : Nat) : UInt8 := fileByte s.disk (cur sb s e) off

structure Sound : Prop where
  inum : (s.itable e).inum < sb.ninodes
  owned : Owned sb s.disk (cur sb s e)

/-- The file has not shrunk, and it has kept its blocks and the bytes in `P` of them. -/
structure Keeps (P : Nat → Prop) (t : Sys) : Prop where
  inum : (t.itable e).inum = (s.itable e).inum
  sound : Sound sb t e
  size : (cur sb s e).size.toNat ≤ (cur sb t e).size.toNat
  block : ∀ bn, blockAt sb s e bn ≠ 0 → blockAt sb t e bn = blockAt sb s e bn
  byte : ∀ off, P off → blockAt sb s e (off / BSIZE) ≠ 0 → byteAt sb t e off = byteAt sb s e off

variable {sb s e}

theorem cur_of_valid (h : (s.itable e).valid = true) : cur sb s e = (s.itable e).d := if_pos h

variable {P : Nat → Prop} {t u : Sys}

theorem Keeps.refl (h : Sound sb s e) : Keeps sb s e P s := ⟨rfl, h, Nat.le_refl _, fun _ _ => rfl, fun _ _ _ => rfl⟩

theorem Keeps.trans (h : Keeps sb s e P t) (h' : Keeps sb t e P u) : Keeps sb s e P u where
  inum := h'.inum.trans h.inum
  sound := h'.sound
  size := h.size.trans h'.size
  block bn hb := (h'.block bn (by rwa [h.block bn hb])).trans (h.block bn hb)
  byte off hoff hb := (h'.byte off hoff (by rwa [h.block _ hb])).trans (h.byte off hoff hb)

theorem Keeps.mono {P' : Nat → Prop} (h : Keeps sb s e P t) (hP : ∀ off, P' off → P off) : Keeps sb s e P' t :=
  ⟨h.inum, h.sound, h.size, h.block, fun off hoff => h.byte off (hP off hoff)⟩

end Entry

section Bmap
variable {sb : Superblock} {s t u : Sys} {e : Fin NINODE} {i : Nat}

theorem keeps_of_slots {x : Inode} (hv : (s.itable e).valid = true) (h : Sound sb s e) (hx : t.itable e = x)
    (hvx : x.valid = true) (hinum : x.inum = (s.itable e).inum) (howned : Owned sb t.disk x.d)
    (hsize : (s.itable e).d.size.toNat ≤ x.d.size.toNat)
    (hslot : ∀ j, slot s.disk (s.itable e).d j ≠ 0 → slot t.disk x.d j = slot s.disk (s.itable e).d j)
    (hdisk : ∀ j ≠ NDIRECT, slot s.disk (s.itable e).d j ≠ 0 →
      t.disk (slot s.disk (s.itable e).d j) = s.disk (slot s.disk (s.itable e).d j)) :
    Keeps sb s e (fun _ => True) t := by
  subst hx
  have hcs : cur sb s e = (s.itable e).d := cur_of_valid hv
  have hct : cur sb t e = (t.itable e).d := cur_of_valid hvx
  refine ⟨hinum, ⟨hinum ▸ h.inum, hct ▸ howned⟩, by rwa [hcs, hct], fun bn hb => ?_, fun off _ hb => ?_⟩
  · unfold blockAt at *
    rw [hcs, fileBlock_eq_slot] at hb
    rw [hcs, hct, fileBlock_eq_slot, fileBlock_eq_slot, hslot _ hb]
  · unfold blockAt at hb
    unfold byteAt fileByte
    rw [hcs, fileBlock_eq_slot] at hb
    rw [hcs, hct, fileBlock_eq_slot, fileBlock_eq_slot, hslot _ hb, hdisk _ (place_ne _) hb]

/-- The inode is in memory, and its file may have got more blocks. -/
structure Grown (sb : Superblock) (e : Fin NINODE) (s t : Sys) : Prop where
  valid : (t.itable e).valid = true
  keeps : Keeps sb s e (fun _ => True) t
  ftable : t.ftable = s.ftable

theorem Grown.refl (hv : (s.itable e).valid = true) (h : Sound sb s e) : Grown sb e s s := ⟨hv, .refl h, rfl⟩

theorem Grown.trans (h : Grown sb e s t) (h' : Grown sb e t u) : Grown sb e s u :=
  ⟨h'.valid, h.keeps.trans h'.keeps, h'.ftable.trans h.ftable⟩

theorem owned_of_valid (hv : (s.itable e).valid = true) (h : Sound sb s e) : Owned sb s.disk (s.itable e).d := cur_of_valid hv ▸ h.owned

variable (ho : sb.Ordered) (hv : (s.itable e).valid = true) (h : Sound sb s e)
include hv h

theorem grown_balloc {r : Nat} (htab : SameTables s t) (hr : r = 0 ∧ t.disk = s.disk ∨ r ≠ 0 ∧ Fresh sb s.disk t.disk r) :
    Grown sb e s t := by
  have how := owned_of_valid hv h
  obtain ⟨hit, hft⟩ := htab
  refine ⟨hit ▸ hv, ?_, hft⟩
  rcases hr with ⟨-, hdisk⟩ | ⟨-, hf⟩
  · refine keeps_of_slots hv h (congrFun hit e) hv rfl (hdisk ▸ how) (Nat.le_refl _) (fun j _ => ?_) fun j _ _ => ?_ <;> rw [hdisk]
  · exact keeps_of_slots hv h (congrFun hit e) hv rfl (how.fresh hf) (Nat.le_refl _) (fun j _ => by rw [how.slot_fresh hf])
      fun j _ hj => how.disk_fresh hf hj

include ho

theorem wp_addrOrAlloc (hi : i < NDIRECT + 1) :
    wp (addrOrAlloc sb e i) (fun r t => Grown sb e s t ∧ (r ≠ 0 → (t.itable e).d.addr i = r)) (fun _ _ => True) s := by
  have how := owned_of_valid hv h
  unfold addrOrAlloc
  rw [wp_bind, wp_view, wp_ite]
  split
  · exact ⟨.refl hv h, fun _ => rfl⟩
  · rename_i hz
    rw [not_not] at hz
    rw [wp_bind]
    refine wp_mono (wp_balloc ho how.front) (fun r t ⟨htab, hr⟩ => ?_) fun _ _ _ => trivial
    rw [wp_bind, wp_doIf]
    refine ⟨fun hr0 => ?_, fun hr0 => ⟨grown_balloc hv h htab hr, fun hne => absurd hne hr0⟩⟩
    obtain ⟨-, hf⟩ := hr.resolve_left fun hl => hr0 hl.1
    obtain ⟨hit, hft⟩ := htab
    have hlt : r < 2 ^ 32 := by have := hf.below; have := ho.blocks; omega
    have hptr : (s.itable e).d.addr NDIRECT ≠ 0 →
        t.disk ((s.itable e).d.addr NDIRECT) = s.disk ((s.itable e).d.addr NDIRECT) := by
      intro hp
      rw [← slot_pointer] at hp ⊢
      exact how.disk_fresh hf hp
    have hslot := slot_setAddr hi hlt hr0 hz hf.zero hptr
    unfold onInode
    rw [wp_change, wp_pure]
    have hx : (t.setInode e ((t.itable e).setD ((t.itable e).d.setAddr i r))).itable e =
        (s.itable e).setD ((s.itable e).d.setAddr i r) := by rw [setInode_self, hit]
    refine ⟨⟨hx ▸ hv, ?_, hft⟩, fun _ => hx ▸ (addr_setAddr hi hlt i).trans (if_pos rfl)⟩
    refine keeps_of_slots hv h hx hv rfl (how.put hslot hf.inUse hf.data hf.below hf.free) (Nat.le_refl _) (fun j hj => ?_)
      fun j _ hj => how.disk_fresh hf hj
    refine (hslot j).trans (if_neg fun hji => hj ?_)
    rw [hji, slot_direct hi, hz]

theorem grown_entry {a : Nat} (hi : i < NINDIRECT) (hp : (s.itable e).d.addr NDIRECT ≠ 0)
    (hz : word (s.disk ((s.itable e).d.addr NDIRECT)) i = 0) (htab : SameTables s t)
    (hf : Fresh sb s.disk t.disk a) (htab' : SameTables t u)
    (hdisk : u.disk = Function.update t.disk ((s.itable e).d.addr NDIRECT)
      (putWord (t.disk ((s.itable e).d.addr NDIRECT)) i (UInt32.ofNat a))) :
    Grown sb e s u ∧ slot u.disk (u.itable e).d (i + (NDIRECT + 1)) = a := by
  have how := owned_of_valid hv h
  obtain ⟨hit, hft⟩ := htab.trans htab'
  have hlt : a < 2 ^ 32 := by have := hf.below; have := ho.blocks; omega
  obtain ⟨hpdata, -, -⟩ := how.pointer hp
  have hpdisk := how.disk_fresh hf (j := NDIRECT) (by rwa [slot_pointer])
  rw [slot_pointer] at hpdisk
  have hx : u.itable e = s.itable e := congrFun hit e
  have hput : u.disk ((s.itable e).d.addr NDIRECT) =
      putWord (s.disk ((s.itable e).d.addr NDIRECT)) i (UInt32.ofNat a) := by
    rw [hdisk, Function.update_self, hpdisk]
  have hslot := slot_putWord hi hlt hp hput
  have huse : ∀ b < sb.size, inUse sb u.disk b = (decide (b = a) || inUse sb s.disk b) := by
    intro b hb
    have := ho.bitmap b hb
    rw [hdisk, inUse_update_of_ne (by omega), hf.inUse b hb]
  refine ⟨⟨hx ▸ hv, ?_, hft⟩, by rw [hx, hslot, if_pos rfl]⟩
  refine keeps_of_slots hv h hx hv rfl (how.put hslot huse hf.data hf.below hf.free) (Nat.le_refl _) (fun j hj => ?_)
    fun j hjn hj => ?_
  · refine (hslot j).trans (if_neg fun hji => hj ?_)
    rw [hji, slot_entry hi hp, hz]
    rfl
  · rw [hdisk, Function.update_of_ne, how.disk_fresh hf hj]
    intro he
    rw [← slot_pointer] at he
    exact hjn (how.inj _ _ hj he)

theorem wp_bmap (bn : Nat) :
    wp (bmap sb e bn) (fun r t => Grown sb e s t ∧ (r ≠ 0 → blockAt sb t e bn = r)) (fun _ _ => True) s := by
  unfold bmap
  rw [wp_ite]
  split
  · rename_i hbn
    refine wp_mono (wp_addrOrAlloc ho hv h (by omega)) (fun r t ⟨hg, hr⟩ => ⟨hg, fun hr0 => ?_⟩) fun _ _ _ => trivial
    unfold blockAt fileBlock
    rw [cur_of_valid hg.valid, if_pos hbn, hr hr0]
  · rename_i hbn
    simp only []
    rw [wp_ite]
    split
    · rename_i hin
      rw [wp_bind]
      refine wp_mono (wp_addrOrAlloc ho hv h (Nat.lt_succ_self _)) (fun addr t ⟨hg, haddr⟩ => ?_) fun _ _ _ => trivial
      rw [wp_ite]
      split
      · exact ⟨hg, fun hne => absurd rfl hne⟩
      · rename_i hne
        have hptr := haddr hne
        have hblock : blockAt sb t e bn = (word (t.disk addr) (bn - NDIRECT)).toNat := by
          unfold blockAt fileBlock
          rw [cur_of_valid hg.valid, if_neg hbn, hptr, if_pos ⟨hin, hne⟩]
        rw [wp_bind]
        unfold bread
        rw [wp_view, wp_ite]
        split
        · exact ⟨hg, fun _ => hblock⟩
        · rename_i hz
          rw [not_not] at hz
          have how := owned_of_valid hg.valid hg.keeps.sound
          rw [wp_bind]
          refine wp_mono (wp_balloc ho how.front) (fun a t' ⟨htab, ha⟩ => ?_) fun _ _ _ => trivial
          rw [wp_bind, wp_doIf]
          refine ⟨fun ha0 => ?_, fun ha0 =>
            ⟨hg.trans (grown_balloc hg.valid hg.keeps.sound htab ha), fun hne => absurd hne ha0⟩⟩
          obtain ⟨-, hf⟩ := ha.resolve_left fun hl => ha0 hl.1
          rw [wp_bind, wp_view]
          refine wp_logWrite fun u hu hudisk => ?_
          obtain ⟨hg', hentry⟩ := grown_entry ho hg.valid hg.keeps.sound hin (hptr ▸ hne) (hptr ▸ hz) htab hf hu
            (by rw [hptr, hudisk])
          refine ⟨hg.trans hg', fun _ => ?_⟩
          unfold blockAt
          rw [cur_of_valid hg'.valid, fileBlock_eq_slot, place, if_neg hbn, show bn + 1 = bn - NDIRECT + (NDIRECT + 1) by omega]
          exact hentry
    · trivial

end Bmap

section Writei
variable {sb : Superblock} {s t : Sys} {e : Fin NINODE} {src : Source}

def Written (sb : Superblock) (e : Fin NINODE) (src : Source) (off a b : Nat) (t : Sys) : Prop :=
  ∀ i, a ≤ i → i < b → blockAt sb t e ((off + i) / BSIZE) ≠ 0 ∧ byteAt sb t e (off + i) = src.byte i

theorem Written.keeps {off a b : Nat} {P : Nat → Prop} (h : Written sb e src off a b s) (hk : Keeps sb s e P t)
    (hP : ∀ i, a ≤ i → i < b → P (off + i)) : Written sb e src off a b t := by
  intro i hai hib
  obtain ⟨hblock, hbyte⟩ := h i hai hib
  exact ⟨by rwa [hk.block _ hblock], (hk.byte _ (hP i hai hib) hblock).trans hbyte⟩

def Outside (off m x : Nat) : Prop := x < off ∨ off + m ≤ x

variable (ho : sb.Ordered) (hv : (s.itable e).valid = true) (h : Sound sb s e)
include ho hv h

theorem write_block {off m : Nat} {f : Nat → UInt8} (hb : blockAt sb s e (off / BSIZE) ≠ 0) (hm : off % BSIZE + m ≤ BSIZE)
    (hit : t.itable = s.itable) (hdisk : t.disk = Function.update s.disk (blockAt sb s e (off / BSIZE))
      ((s.disk (blockAt sb s e (off / BSIZE))).write (off % BSIZE) m f)) :
    Keeps sb s e (Outside off m) t ∧ ∀ i < m, blockAt sb t e ((off + i) / BSIZE) ≠ 0 ∧ byteAt sb t e (off + i) = f i := by
  have hcs : cur sb s e = (s.itable e).d := cur_of_valid hv
  have hct : cur sb t e = (s.itable e).d := by rw [cur_of_valid (hit ▸ hv), hit]
  have how := owned_of_valid hv h
  have hsame : ∀ bn, blockAt sb t e bn = blockAt sb s e bn := by
    intro bn
    unfold blockAt at *
    rw [hcs] at hb hdisk
    rw [hct, hcs, hdisk, fileBlock_eq_slot, (how.write_data ho hb).1, fileBlock_eq_slot]
  -- the bytes of the file after the write: another block of the file is another block of the disk
  have hbyte : ∀ x, blockAt sb s e (x / BSIZE) ≠ 0 →
      byteAt sb t e x = if off ≤ x ∧ x < off + m then f (x - off) else byteAt sb s e x := by
    intro x hx
    have hbs : byteAt sb s e x = (s.disk (blockAt sb s e (x / BSIZE))).get (x % BSIZE) := rfl
    have hbt : byteAt sb t e x = (t.disk (blockAt sb t e (x / BSIZE))).get (x % BSIZE) := rfl
    have hmod := Nat.mod_lt x (show 0 < BSIZE by decide)
    rw [hbt, hbs, hsame, hdisk]
    by_cases hxo : x / BSIZE = off / BSIZE
    · rw [hxo, Function.update_self, Bytes.get_write _ _ _ _ _ hmod]
      have hx' := Nat.div_add_mod x BSIZE
      have ho' := Nat.div_add_mod off BSIZE
      rw [hxo] at hx'
      by_cases hin : off ≤ x ∧ x < off + m
      · rw [if_pos (by omega), if_pos hin]
        congr 1
        omega
      · rw [if_neg (by omega), if_neg hin]
    · have hne : blockAt sb s e (x / BSIZE) ≠ blockAt sb s e (off / BSIZE) := by
        unfold blockAt at hx ⊢
        rw [hcs, fileBlock_eq_slot] at hx
        rw [hcs, fileBlock_eq_slot, fileBlock_eq_slot]
        exact fun he => hxo (place_inj (how.inj _ _ hx he))
      have hout : ¬(off ≤ x ∧ x < off + m) := by
        rintro ⟨hle, hlt⟩
        obtain ⟨i, rfl⟩ := Nat.exists_eq_add_of_le hle
        exact hxo (same_block (by omega)).1
      rw [Function.update_of_ne hne, if_neg hout]
  refine ⟨⟨by rw [hit], ⟨by rw [hit]; exact h.inum, ?_⟩, by rw [hcs, hct], fun bn _ => hsame bn, fun x hx hbx => ?_⟩,
    fun i hi => ?_⟩
  · unfold blockAt at hb hdisk
    rw [hcs] at hb hdisk
    rw [hct, hdisk]
    exact (how.write_data ho hb).2
  · rw [hbyte x hbx, if_neg (by unfold Outside at hx; omega)]
  · have hblk := (same_block (show off % BSIZE + i < BSIZE by omega)).1
    rw [hbyte _ (by rwa [hblk]), hsame, hblk, if_pos (by omega), Nat.add_sub_cancel_left]
    exact ⟨hb, rfl⟩

theorem wp_writeiLoop {off n rounds tot : Nat} (htot : tot ≤ n) :
    wp (writeiLoop sb e src n rounds tot (off + tot))
      (fun r t => r.1 ≤ n ∧ r.2 = off + r.1 ∧ (t.itable e).valid = true ∧ t.ftable = s.ftable ∧
        Keeps sb s e (Outside (off + tot) (n - tot)) t ∧ Written sb e src off tot r.1 t)
      (fun _ _ => True) s := by
  induction rounds generalizing s tot with
  | zero => exact ⟨htot, rfl, hv, rfl, .refl h, fun i hi hi' => absurd hi' (by omega)⟩
  | succ rounds ih =>
    rw [writeiLoop, wp_ite]
    split
    · rename_i hlt
      rw [wp_bind]
      refine wp_mono (wp_bmap ho hv h _) (fun addr t ⟨hg, haddr⟩ => ?_) fun _ _ _ => trivial
      have hk : Keeps sb s e (Outside (off + tot) (n - tot)) t := hg.keeps.mono fun _ _ => trivial
      rw [wp_ite]
      split
      · exact ⟨htot, rfl, hg.valid, hg.ftable, hk, fun i hi hi' => absurd hi' (by omega)⟩
      · rename_i hne
        have hblock := haddr hne
        subst hblock
        have hBSIZE : 0 < BSIZE := by decide
        have hroom := Nat.mod_lt (off + tot) hBSIZE
        generalize hm : min (n - tot) (BSIZE - (off + tot) % BSIZE) = m
        rw [wp_bind]
        unfold bread
        rw [wp_view, wp_ite]
        split
        · rw [wp_bind]
          refine wp_logWrite fun w ⟨hwit, hwft⟩ hwdisk => ?_
          obtain ⟨hk', hw⟩ := write_block ho hg.valid hg.keeps.sound hne (by omega) hwit hwdisk
          rw [Nat.add_assoc off]
          refine wp_mono (ih (hwit ▸ hg.valid) hk'.sound (by omega)) (fun r u ⟨hrn, hr, hvu, hfu, hku, hwu⟩ => ?_)
            fun _ _ _ => trivial
          refine ⟨hrn, hr, hvu, hfu.trans (hwft.trans hg.ftable), ?_, fun i hi hir => ?_⟩
          · refine hk.trans ((hk'.mono fun x hx => ?_).trans (hku.mono fun x hx => ?_)) <;> unfold Outside at * <;> omega
          · by_cases him : i < tot + m
            · -- a byte of this block, which the later rounds leave alone
              have hwt : Written sb e src off tot (tot + m) w := by
                intro i hi him
                obtain ⟨j, rfl⟩ := Nat.exists_eq_add_of_le hi
                rw [← Nat.add_assoc]
                exact hw j (by omega)
              exact hwt.keeps hku (fun j _ hj => .inl (by omega)) i hi him
            · exact hwu i (by omega) hir
        · rw [wp_bind, wp_change, wp_pure]
          obtain ⟨hk', -⟩ := write_block ho hg.valid hg.keeps.sound (m := src.copied tot m)
            (f := fun i => src.byte (tot + i)) (t := t.write _ _) hne (by omega) rfl rfl
          refine ⟨htot, rfl, hg.valid, hg.ftable, hk.trans (hk'.mono fun x hx => ?_), fun i hi hi' => absurd hi' (by omega)⟩
          unfold Outside at *
          omega
    · exact ⟨htot, rfl, hv, rfl, .refl h, fun i hi hi' => absurd hi' (by omega)⟩

theorem wp_iupdate : wp (iupdate sb e) (fun _ t => Grown sb e s t) (fun _ _ => True) s := by
  have how := owned_of_valid hv h
  unfold iupdate
  rw [wp_bind, wp_view, wp_bind, wp_view]
  refine wp_logWrite fun t ⟨hit, hft⟩ hdisk => ?_
  obtain ⟨hslot, howned⟩ := how.write_inodes (x := inodeBlock sb s.disk (s.itable e).inum (s.itable e).d) ho h.inum
  rw [← hdisk] at hslot howned
  refine ⟨hit ▸ hv, keeps_of_slots hv h (congrFun hit e) hv rfl howned (Nat.le_refl _) (fun j _ => congrFun hslot j)
    fun j _ hj => ?_, hft⟩
  obtain ⟨hdata, hsize, -⟩ := how.used j hj
  have := ho.inodes _ h.inum
  have := ho.bitmap _ hsize
  have := bmapstart_le sb (slot s.disk (s.itable e).d j)
  rw [hdisk]
  exact Function.update_of_ne (by omega) _ _

omit ho in
theorem grown_setSize {size : Nat} (hsize : (s.itable e).d.size.toNat ≤ (UInt32.ofNat size).toNat) :
    Grown sb e s (s.setInode e ((s.itable e).setD ((s.itable e).d.setSize size))) := by
  have hslot : slot s.disk ((s.itable e).d.setSize size) = slot s.disk (s.itable e).d := slot_congr rfl fun _ => rfl
  have how := (owned_of_valid hv h).congr hslot fun _ _ hin => hin
  refine ⟨by rw [setInode_self]; exact hv, ?_, rfl⟩
  exact keeps_of_slots hv h (setInode_self ..) hv rfl how hsize (fun j _ => congrFun hslot j) fun _ _ _ => rfl

theorem wp_writei {off n : Nat} :
    wp (writei sb e src off n)
      (fun r t => (t.itable e).valid = true ∧ t.ftable = s.ftable ∧ Keeps sb s e (Outside off n) t ∧
        (r = n → Written sb e src off 0 n t ∧ off + n ≤ (cur sb t e).size.toNat ∧ off + n ≤ MAXFILE * BSIZE))
      (fun _ _ => True) s := by
  unfold writei
  rw [wp_bind, wp_view, wp_ite]
  split
  · exact ⟨hv, rfl, .refl h, fun hr => absurd hr (by omega)⟩
  rw [wp_ite]
  split
  · exact ⟨hv, rfl, .refl h, fun hr => absurd hr (by omega)⟩
  rename_i hmax
  rw [wp_bind]
  refine wp_mono (wp_writeiLoop ho hv h (Nat.zero_le n)) (fun r t ⟨hrn, hr, hvt, hft, hk, hw⟩ => ?_)
    fun _ _ _ => trivial
  obtain ⟨tot, off'⟩ := r
  simp only at hrn hr hw
  subst hr
  have hlt : off + tot < 2 ^ 32 := by unfold MAXFILE NDIRECT NINDIRECT BSIZE at hmax; omega
  have hof : (UInt32.ofNat (off + tot)).toNat = off + tot := UInt32.toNat_ofNat_of_lt' hlt
  -- the size is brought up to date, then the inode is written
  have hend : ∀ u, Grown sb e t u → off + tot ≤ (cur sb u e).size.toNat →
      wp (iupdate sb e >>= fun _ => pure (tot : Int))
        (fun r t => (t.itable e).valid = true ∧ t.ftable = s.ftable ∧ Keeps sb s e (Outside off n) t ∧
          (r = n → Written sb e src off 0 n t ∧ off + n ≤ (cur sb t e).size.toNat ∧ off + n ≤ MAXFILE * BSIZE))
        (fun _ _ => True) u := by
    intro u hu hsize
    rw [wp_bind]
    refine wp_mono (wp_iupdate ho hu.valid hu.keeps.sound) (fun _ w hgw => ?_) fun _ _ _ => trivial
    have hg := hu.trans hgw
    refine ⟨hg.valid, hg.ftable.trans hft, hk.trans (hg.keeps.mono fun _ _ => trivial), fun hrn' => ?_⟩
    obtain rfl : tot = n := by omega
    exact ⟨hw.keeps hg.keeps fun _ _ _ => trivial, hsize.trans hgw.keeps.size, by omega⟩
  rw [wp_bind, wp_view, wp_bind, wp_doIf]
  have hcur : cur sb t e = (t.itable e).d := cur_of_valid hvt
  refine ⟨fun hgt => ?_, fun hle => ?_⟩
  · have hg := grown_setSize hvt hk.sound (show _ ≤ (UInt32.ofNat (off + tot)).toNat by omega)
    refine hend _ hg ?_
    rw [cur_of_valid hg.valid, setInode_self]
    exact hof.ge
  · exact hend t (.refl hvt hk.sound) (by rw [hcur]; omega)

end Writei

end Xv6.Fs
