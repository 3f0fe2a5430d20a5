import Mathlib.Data.List.GetD
import Xv6.Fs.Content
import Xv6.Mkfs.Basic
import Xv6.Lib.Reach

/-! What `iappend` does to the image. The inodes are given as a function, so that the inode being appended to can be
    ahead of the one on disk. -/

namespace Xv6.Mkfs
open Lib Fs

section Laid
variable {m : Image} {D : Nat → Dinode} {a i j : Nat}

/-- The blocks of the files: after the metadata, before `freeblock`, and each in one position of one file. -/
structure Laid (m : Image) (D : Nat → Dinode) : Prop where
  len : m.len = FSSIZE
  front : nmeta ≤ m.freeblock
  used : ∀ i j, slot m.disk (D i) j ≠ 0 → nmeta ≤ slot m.disk (D i) j ∧ slot m.disk (D i) j < m.freeblock
  inj : ∀ i j i' j', slot m.disk (D i) j ≠ 0 → slot m.disk (D i) j = slot m.disk (D i') j' → i = i' ∧ j = j'
  clean : ∀ b, m.freeblock ≤ b → m.disk b = Bytes.zero

/-- Position `k` of file `a` has got the block `freeblock`; nothing else about files has changed. -/
structure Filled (a k : Nat) (m : Image) (D : Nat → Dinode) (m' : Image) (D' : Nat → Dinode) : Prop where
  laid : Laid m' D'
  freeblock : m'.freeblock = m.freeblock + 1
  freeinode : m'.freeinode = m.freeinode
  slots : ∀ i j, slot m'.disk (D' i) j = if i = a ∧ j = k then m.freeblock else slot m.disk (D i) j
  disk : ∀ i j, j ≠ NDIRECT → slot m.disk (D i) j ≠ 0 → m'.disk (slot m.disk (D i) j) = m.disk (slot m.disk (D i) j)
  new : m'.disk m.freeblock = Bytes.zero
  front : ∀ b < nmeta, m'.disk b = m.disk b
  same : ∀ i, (D' i).type = (D i).type ∧ (D' i).nlink = (D i).nlink ∧ (D' i).size = (D i).size

theorem Laid.pointer (h : Laid m D) (hp : (D i).addr NDIRECT ≠ 0) :
    nmeta ≤ (D i).addr NDIRECT ∧ (D i).addr NDIRECT < m.freeblock := by
  have := h.used i NDIRECT
  rw [slot_pointer] at this
  exact this hp

theorem Laid.fill (h : Laid m D) {m' : Image} {D' : Nat → Dinode} {k : Nat} (hlen : m'.len = m.len)
    (hfree : m'.freeblock = m.freeblock + 1)
    (hslots : ∀ i j, slot m'.disk (D' i) j = if i = a ∧ j = k then m.freeblock else slot m.disk (D i) j)
    (hclean : ∀ b, m.freeblock ≤ b → m'.disk b = m.disk b) : Laid m' D' := by
  have hold : ∀ i j, slot m.disk (D i) j ≠ 0 → slot m.disk (D i) j ≠ m.freeblock := by
    intro i j hij
    have := h.used i j hij
    omega
  have hfront := h.front
  refine ⟨hlen.trans h.len, by omega, fun i j hij => ?_, fun i j i' j' hij heq => ?_, fun b hb => ?_⟩
  · rw [hslots] at hij ⊢
    split
    · omega
    · rename_i hne
      rw [if_neg hne] at hij
      have := h.used i j hij
      omega
  · rw [hslots] at hij
    rw [hslots, hslots] at heq
    by_cases h1 : i = a ∧ j = k <;> by_cases h2 : i' = a ∧ j' = k
    · exact ⟨h1.1.trans h2.1.symm, h1.2.trans h2.2.symm⟩
    · rw [if_pos h1] at hij heq
      rw [if_neg h2] at heq
      exact absurd heq.symm (hold i' j' (by omega))
    · rw [if_neg h1] at hij heq
      rw [if_pos h2] at heq
      exact absurd heq (hold i j hij)
    · rw [if_neg h1] at hij heq
      rw [if_neg h2] at heq
      exact h.inj i j i' j' hij heq
  · rw [hclean b (by omega), h.clean b (by omega)]

theorem Laid.fill_addr (h : Laid m D) (hfit : m.freeblock < FSSIZE) (hi : i < NDIRECT + 1) (hz : (D a).addr i = 0) :
    Filled a i m D m.bump (Function.update D a ((D a).setAddr i m.freeblock)) := by
  have hfront := h.front
  have hslots : ∀ i' j, slot m.disk (Function.update D a ((D a).setAddr i m.freeblock) i') j =
      if i' = a ∧ j = i then m.freeblock else slot m.disk (D i') j := by
    intro i' j
    by_cases hia : i' = a
    · subst hia
      rw [Function.update_self, slot_setAddr hi (by unfold FSSIZE at hfit; omega) (by unfold nmeta at hfront; omega) hz
        (h.clean _ (Nat.le_refl _)) fun _ => rfl]
      simp only [true_and]
    · rw [Function.update_of_ne hia, if_neg fun hc => hia hc.1]
  refine ⟨h.fill rfl rfl hslots fun _ _ => rfl, rfl, rfl, hslots, fun _ _ _ _ => rfl, h.clean _ (Nat.le_refl _),
    fun _ _ => rfl, fun i' => ?_⟩
  by_cases hia : i' = a
  · subst hia
    rw [Function.update_self]
    exact ⟨rfl, rfl, rfl⟩
  · rw [Function.update_of_ne hia]
    exact ⟨rfl, rfl, rfl⟩

theorem Laid.fill_entry (h : Laid m D) (hfit : m.freeblock < FSSIZE) (hi : i < NINDIRECT)
    (hp : (D a).addr NDIRECT ≠ 0) :
    Filled a (i + (NDIRECT + 1)) m D (m.bump.wsect ((D a).addr NDIRECT)
      (putWord (m.disk ((D a).addr NDIRECT)) i (UInt32.ofNat m.freeblock))) D := by
  obtain ⟨hlo, hhi⟩ := h.pointer hp
  have hlen := h.len
  have hlt : m.freeblock < 2 ^ 32 := by
    unfold FSSIZE at hfit
    omega
  generalize hm' : m.bump.wsect ((D a).addr NDIRECT)
    (putWord (m.disk ((D a).addr NDIRECT)) i (UInt32.ofNat m.freeblock)) = m'
  have hdisk : m'.disk = Function.update m.disk ((D a).addr NDIRECT)
      (putWord (m.disk ((D a).addr NDIRECT)) i (UInt32.ofNat m.freeblock)) := by rw [← hm']; rfl
  have hlen' : m'.len = m.len := by
    rw [← hm']
    exact Nat.max_eq_left (show (D a).addr NDIRECT + 1 ≤ m.len by omega)
  have hfree : m'.freeblock = m.freeblock + 1 := by rw [← hm']; rfl
  have hslots : ∀ i' j, slot m'.disk (D i') j =
      if i' = a ∧ j = i + (NDIRECT + 1) then m.freeblock else slot m.disk (D i') j := by
    intro i' j
    by_cases hia : i' = a
    · subst hia
      rw [slot_putWord hi hlt hp (by rw [hdisk, Function.update_self])]
      simp only [true_and]
    · rw [if_neg fun hc => hia hc.1]
      refine congrFun (slot_congr rfl fun hp' => ?_) j
      rw [hdisk, Function.update_of_ne]
      intro heq
      have := h.inj i' NDIRECT a NDIRECT (by rwa [slot_pointer]) (by rw [slot_pointer, slot_pointer, heq])
      exact hia this.1
  have hother : ∀ b, b ≠ (D a).addr NDIRECT → m'.disk b = m.disk b := fun b hb => by
    rw [hdisk, Function.update_of_ne hb]
  refine ⟨h.fill hlen' hfree hslots fun b hb => hother b (by omega), hfree, by rw [← hm']; rfl, hslots, ?_, ?_, ?_,
    fun _ => ⟨rfl, rfl, rfl⟩⟩
  · intro i' j hj hne
    refine hother _ fun heq => hj ?_
    exact (h.inj i' j a NDIRECT hne (by rw [slot_pointer, heq])).2
  · rw [hother _ (by omega)]
    exact h.clean _ (Nat.le_refl _)
  · exact fun b hb => hother b (by omega)

theorem Laid.of_slots (h : Laid m D) {m' : Image} {D' : Nat → Dinode} (hlen : m'.len = m.len)
    (hfree : m'.freeblock = m.freeblock) (hslots : ∀ i, slot m'.disk (D' i) = slot m.disk (D i))
    (hclean : ∀ b, m.freeblock ≤ b → m'.disk b = m.disk b) : Laid m' D' := by
  refine ⟨hlen.trans h.len, hfree ▸ h.front, fun i j => ?_, fun i j i' j' => ?_, fun b hb => ?_⟩
  · rw [hslots, hfree]
    exact h.used i j
  · rw [hslots, hslots]
    exact h.inj i j i' j'
  · rw [hfree] at hb
    rw [hclean b hb, h.clean b hb]

theorem Laid.write_data (h : Laid m D) (hfit : m.freeblock ≤ FSSIZE) {bn : Nat} {x : Block}
    (hb : fileBlock m.disk (D a) bn ≠ 0) :
    Laid (m.wsect (fileBlock m.disk (D a) bn) x) D ∧
    ∀ i, slot (m.wsect (fileBlock m.disk (D a) bn) x).disk (D i) = slot m.disk (D i) := by
  rw [fileBlock_eq_slot] at hb ⊢
  obtain ⟨hlo, hhi⟩ := h.used _ _ hb
  have hlen := h.len
  have hs : ∀ i, slot (m.wsect (slot m.disk (D a) (place bn)) x).disk (D i) = slot m.disk (D i) := by
    intro i
    refine slot_congr rfl fun hp => Function.update_of_ne (fun he => ?_) _ _
    rw [← slot_pointer] at he hp
    exact place_ne bn (h.inj _ _ _ _ hp he).2.symm
  exact ⟨h.of_slots (Nat.max_eq_left (by omega)) rfl hs fun b hb => Function.update_of_ne (by omega) _ _, hs⟩

theorem Laid.write_meta (h : Laid m D) {n : Nat} {x : Block} (hn : n < nmeta) :
    Laid (m.wsect n x) D ∧ ∀ i, slot (m.wsect n x).disk (D i) = slot m.disk (D i) := by
  have hfront := h.front
  have hs : ∀ i, slot (m.wsect n x).disk (D i) = slot m.disk (D i) := by
    intro i
    refine slot_congr rfl fun hp => Function.update_of_ne ?_ _ _
    have := h.pointer hp
    omega
  have : nmeta ≤ FSSIZE := by decide
  exact ⟨h.of_slots (Nat.max_eq_left (by rw [h.len]; omega)) rfl hs fun b hb => Function.update_of_ne (by omega) _ _, hs⟩

end Laid

/-! ### Contents -/

def need (len : Nat) : Nat := (len + (BSIZE - 1)) / BSIZE + if NDIRECT * BSIZE < len then 1 else 0

def more (off : Nat) : Nat := (if off % BSIZE = 0 then 1 else 0) + if off = NDIRECT * BSIZE then 1 else 0

theorem need_add {off n : Nat} (hn : 0 < n) (hfit : off % BSIZE + n ≤ BSIZE) : need (off + n) = need off + more off := by
  unfold need more NDIRECT BSIZE at *
  split <;> split <;> split <;> split <;> omega

section Contents
variable {m m' : Image} {D : Nat → Dinode} {F : Nat → List UInt8} {a : Nat} {d : Dinode}

/-- File `i` consists of the bytes `F i` and has blocks for them and no others. -/
structure Contents (m : Image) (D : Nat → Dinode) (F : Nat → List UInt8) : Prop where
  block : ∀ i bn, fileBlock m.disk (D i) bn ≠ 0 ↔ bn * BSIZE < (F i).length
  pointer : ∀ i, (D i).addr NDIRECT ≠ 0 ↔ NDIRECT * BSIZE < (F i).length
  byte : ∀ i x, x < (F i).length → fileByte m.disk (D i) x = (F i).getD x 0

structure Ready (a bn : Nat) (m : Image) (D : Nat → Dinode) (x : Nat) (m' : Image) (D' : Nat → Dinode) : Prop where
  laid : Laid m' D'
  freeinode : m'.freeinode = m.freeinode
  block : fileBlock m'.disk (D' a) bn = x
  ne : x ≠ 0
  pointer : NDIRECT ≤ bn → (D' a).addr NDIRECT ≠ 0
  kept : ∀ i j, slot m.disk (D i) j ≠ 0 → slot m'.disk (D' i) j = slot m.disk (D i) j
  only : ∀ i j, slot m'.disk (D' i) j ≠ 0 → slot m.disk (D i) j ≠ 0 ∨ i = a ∧ (j = place bn ∨ j = NDIRECT ∧ NDIRECT ≤ bn)
  disk : ∀ i j, j ≠ NDIRECT → slot m.disk (D i) j ≠ 0 → m'.disk (slot m.disk (D i) j) = m.disk (slot m.disk (D i) j)
  front : ∀ b < nmeta, m'.disk b = m.disk b
  same : ∀ i, (D' i).type = (D i).type ∧ (D' i).nlink = (D i).nlink ∧ (D' i).size = (D i).size

theorem Ready.bounds {bn x : Nat} {D' : Nat → Dinode} (h : Ready a bn m D x m' D') : nmeta ≤ x ∧ x < m'.freeblock := by
  have hused := h.laid.used a (place bn)
  rw [← fileBlock_eq_slot, h.block] at hused
  exact hused h.ne

theorem Ready.of_filled {bn : Nat} {D' : Nat → Dinode} (h : Filled a (place bn) m D m' D') (hpos : m.freeblock ≠ 0)
    (hp : NDIRECT ≤ bn → (D' a).addr NDIRECT ≠ 0) (hz : slot m.disk (D a) (place bn) = 0) :
    Ready a bn m D m.freeblock m' D' where
  laid := h.laid
  freeinode := h.freeinode
  block := by rw [fileBlock_eq_slot, h.slots, if_pos ⟨rfl, rfl⟩]
  ne := hpos
  pointer := hp
  kept i j hij := by
    rw [h.slots, if_neg]
    rintro ⟨rfl, rfl⟩
    exact hij hz
  only i j hij := by
    rw [h.slots] at hij
    split at hij
    · rename_i hc
      exact .inr ⟨hc.1, .inl hc.2⟩
    · exact .inl hij
  disk := h.disk
  front := h.front
  same := h.same

theorem Ready.after_pointer {bn x : Nat} {m₁ : Image} {D₁ D' : Nat → Dinode} (h₁ : Filled a NDIRECT m D m₁ D₁)
    (hz : slot m.disk (D a) NDIRECT = 0) (hbn : NDIRECT ≤ bn) (h : Ready a bn m₁ D₁ x m' D') :
    Ready a bn m D x m' D' := by
  have hkept : ∀ i j, slot m.disk (D i) j ≠ 0 → slot m₁.disk (D₁ i) j = slot m.disk (D i) j := by
    intro i j hij
    rw [h₁.slots, if_neg]
    rintro ⟨rfl, rfl⟩
    exact hij hz
  refine ⟨h.laid, h.freeinode.trans h₁.freeinode, h.block, h.ne, h.pointer, fun i j hij => ?_, fun i j hij => ?_, fun i j hj hij => ?_,
    fun b hb => (h.front b hb).trans (h₁.front b hb), fun i => ?_⟩
  · rw [h.kept i j (by rwa [hkept i j hij]), hkept i j hij]
  · rcases h.only i j hij with hold | hnew
    · rw [h₁.slots] at hold
      split at hold
      · rename_i hc
        exact .inr ⟨hc.1, .inr ⟨hc.2, hbn⟩⟩
      · exact .inl hold
    · exact .inr hnew
  · have := h.disk i j hj (by rwa [hkept i j hij])
    rw [hkept i j hij] at this
    rw [this, h₁.disk i j hj hij]
  · obtain ⟨ht, hn, hs⟩ := h.same i
    obtain ⟨ht', hn', hs'⟩ := h₁.same i
    exact ⟨ht.trans ht', hn.trans hn', hs.trans hs'⟩

theorem rsect_of_lt (h : Laid m D) {b : Nat} (hb : b < FSSIZE) : m.rsect b = .ok (m.disk b) := by
  unfold Image.rsect
  rw [h.len, if_pos hb]

theorem entryFor_new (h : Laid m D) {i : Nat} (hi : i < NINDIRECT) (hp : (D a).addr NDIRECT ≠ 0)
    (hfit : m.freeblock < FSSIZE) (hz : slot m.disk (D a) (i + (NDIRECT + 1)) = 0) :
    ∃ m', m.entryFor (D a) i = .ok (m.freeblock, m', D a) ∧ Filled a (i + (NDIRECT + 1)) m D m' D := by
  obtain ⟨-, hhi⟩ := h.pointer hp
  rw [slot_entry hi hp] at hz
  refine ⟨_, ?_, h.fill_entry hfit hi hp⟩
  unfold Image.entryFor
  rw [rsect_of_lt h (by omega)]
  exact if_pos (UInt32.toNat_inj.mp hz)

theorem entryFor_old (h : Laid m D) {i : Nat} (hi : i < NINDIRECT) (hp : (D a).addr NDIRECT ≠ 0)
    (hfit : m.freeblock ≤ FSSIZE) (hz : slot m.disk (D a) (i + (NDIRECT + 1)) ≠ 0) :
    m.entryFor (D a) i = .ok (slot m.disk (D a) (i + (NDIRECT + 1)), m, D a) := by
  obtain ⟨-, hhi⟩ := h.pointer hp
  rw [slot_entry hi hp] at hz ⊢
  unfold Image.entryFor
  rw [rsect_of_lt h (by omega)]
  exact if_neg fun hw => hz (by rw [hw]; rfl)

theorem blockFor_spec (h : Laid m D) (hc : Contents m D F) {off : Nat} (hoff : (F a).length = off)
    (hmax : off / BSIZE < MAXFILE) (hfit : m.freeblock + more off ≤ FSSIZE) :
    ∃ x m' d', m.blockFor (D a) (off / BSIZE) = .ok (x, m', d') ∧ Ready a (off / BSIZE) m D x m' (Function.update D a d') ∧
      m'.freeblock = m.freeblock + more off := by
  have hblock := hc.block a (off / BSIZE)
  have hptr := hc.pointer a
  rw [hoff] at hblock hptr
  have hfront := h.front
  have hpos : m.freeblock ≠ 0 := by unfold nmeta at hfront; omega
  have hdm := Nat.div_add_mod off BSIZE
  rw [Nat.mul_comm] at hdm
  unfold Image.blockFor
  by_cases hdir : off / BSIZE < NDIRECT
  · have hfb : fileBlock m.disk (D a) (off / BSIZE) = (D a).addr (off / BSIZE) := if_pos hdir
    have hpl : place (off / BSIZE) = off / BSIZE := if_pos hdir
    have hne : off ≠ NDIRECT * BSIZE := by
      rintro rfl
      rw [Nat.mul_div_cancel _ (by decide)] at hdir
      omega
    rw [if_pos hdir]
    rw [hfb] at hblock
    by_cases hz : (D a).addr (off / BSIZE) = 0
    · have hmod : off % BSIZE = 0 := by
        by_contra hmod
        exact hblock.mpr (by omega) hz
      have hmore : more off = 1 := by
        unfold more
        rw [if_pos hmod, if_neg hne]
      rw [if_pos hz]
      have hf := h.fill_addr (by omega) (show off / BSIZE < NDIRECT + 1 by omega) hz
      refine ⟨_, _, _, rfl, ?_, by rw [hmore]; rfl⟩
      refine .of_filled (by rw [hpl]; exact hf) hpos (fun hge => absurd hge (by omega)) ?_
      rw [← fileBlock_eq_slot, hfb, hz]
    · have hmod : off % BSIZE ≠ 0 := by
        have := hblock.mp hz
        omega
      rw [if_neg hz]
      refine ⟨_, _, _, rfl, ?_, by unfold more; rw [if_neg hmod, if_neg hne]; rfl⟩
      rw [Function.update_eq_self]
      exact ⟨h, rfl, hfb, hz, fun hge => absurd hge (by omega), fun _ _ _ => rfl, fun _ _ hij => .inl hij,
        fun _ _ _ _ => rfl, fun _ _ => rfl, fun _ => ⟨rfl, rfl, rfl⟩⟩
  · have hin : off / BSIZE - NDIRECT < NINDIRECT := by unfold MAXFILE at hmax; omega
    have hpl : place (off / BSIZE) = off / BSIZE - NDIRECT + (NDIRECT + 1) := by
      unfold place
      rw [if_neg hdir]
      omega
    have hge : NDIRECT * BSIZE ≤ off := by
      have : NDIRECT * BSIZE ≤ off / BSIZE * BSIZE := Nat.mul_le_mul_right _ (by omega)
      omega
    have hslot : slot m.disk (D a) (off / BSIZE - NDIRECT + (NDIRECT + 1)) = fileBlock m.disk (D a) (off / BSIZE) := by
      rw [fileBlock_eq_slot, hpl]
    rw [if_neg hdir]
    unfold Image.indirectFor
    by_cases hp : (D a).addr NDIRECT = 0
    · -- the first block after the direct ones: the indirect block is new, and so is its entry
      obtain rfl : off = NDIRECT * BSIZE := by
        by_contra hne
        exact hptr.mpr (by omega) hp
      have hmore : more (NDIRECT * BSIZE) = 2 := by decide
      have hf := h.fill_addr (by omega) (Nat.lt_succ_self NDIRECT) hp
      rw [if_pos hp]
      have hD : Function.update D a ((D a).setAddr NDIRECT m.freeblock) a = (D a).setAddr NDIRECT m.freeblock :=
        Function.update_self ..
      have hp₁ : (Function.update D a ((D a).setAddr NDIRECT m.freeblock) a).addr NDIRECT ≠ 0 := by
        have := hf.slots a NDIRECT
        rw [slot_pointer, if_pos ⟨rfl, rfl⟩] at this
        omega
      have hz₁ : slot m.bump.disk (Function.update D a ((D a).setAddr NDIRECT m.freeblock) a)
          (NDIRECT * BSIZE / BSIZE - NDIRECT + (NDIRECT + 1)) = 0 := by
        rw [hf.slots, if_neg fun hc => absurd hc.2 (by omega), hslot]
        by_contra hne
        have := hblock.mp hne
        rw [Nat.mul_div_cancel _ (by decide)] at this
        omega
      obtain ⟨m', hrun, hf'⟩ := entryFor_new hf.laid hin hp₁ (show m.freeblock + 1 < FSSIZE by omega) hz₁
      rw [hD] at hrun
      refine ⟨_, _, _, hrun, ?_, ?_⟩
      · refine .after_pointer hf (by rw [slot_pointer, hp]) (by omega) (.of_filled ?_ ?_ (fun _ => hp₁) ?_)
        · rw [hpl]
          exact hf'
        · exact Nat.succ_ne_zero _
        · rw [hpl]
          exact hz₁
      · rw [hf'.freeblock, hf.freeblock, hmore]
    · have hlt := hptr.mp hp
      rw [if_neg hp]
      by_cases hz : fileBlock m.disk (D a) (off / BSIZE) = 0
      · have hmod : off % BSIZE = 0 := by
          by_contra hmod
          exact hblock.mpr (by omega) hz
        have hmore : more off = 1 := by
          unfold more
          rw [if_pos hmod, if_neg (by omega)]
        obtain ⟨m', hrun, hf⟩ := entryFor_new h hin hp (by omega) (hslot.trans hz)
        refine ⟨_, _, _, hrun, ?_, by rw [hf.freeblock, hmore]⟩
        rw [Function.update_eq_self]
        refine .of_filled (by rw [hpl]; exact hf) hpos (fun _ => hp) (by rw [← fileBlock_eq_slot, hz])
      · have hmod : off % BSIZE ≠ 0 := by
          have := hblock.mp hz
          omega
        refine ⟨_, _, _, entryFor_old h hin hp (by omega) (by rwa [hslot]), ?_, ?_⟩
        · rw [Function.update_eq_self, hslot]
          exact ⟨h, rfl, rfl, hz, fun _ => hp, fun _ _ _ => rfl, fun _ _ hij => .inl hij, fun _ _ _ _ => rfl,
            fun _ _ => rfl, fun _ => ⟨rfl, rfl, rfl⟩⟩
        · unfold more
          rw [if_neg hmod, if_neg (by omega)]
          rfl

section Ready
variable {bn x : Nat} {D' : Nat → Dinode} (hr : Ready a bn m D x m' D')
include hr

theorem Ready.block_iff {i n : Nat} (hi : ¬(i = a ∧ n = bn)) :
    fileBlock m'.disk (D' i) n ≠ 0 ↔ fileBlock m.disk (D i) n ≠ 0 := by
  rw [fileBlock_eq_slot, fileBlock_eq_slot]
  constructor
  · intro hs
    rcases hr.only i _ hs with hold | ⟨rfl, hplace | hplace⟩
    · exact hold
    · exact absurd ⟨rfl, place_inj hplace⟩ hi
    · exact absurd hplace.1 (place_ne n)
  · intro hs
    rw [hr.kept i _ hs]
    exact hs

theorem Ready.pointer_iff {i : Nat} (hi : ¬(i = a ∧ NDIRECT ≤ bn)) : (D' i).addr NDIRECT ≠ 0 ↔ (D i).addr NDIRECT ≠ 0 := by
  have hp : (D' i).addr NDIRECT = slot m'.disk (D' i) NDIRECT := slot_pointer.symm
  have hp0 : (D i).addr NDIRECT = slot m.disk (D i) NDIRECT := slot_pointer.symm
  rw [hp, hp0]
  constructor
  · intro hs
    rcases hr.only i _ hs with hold | ⟨rfl, hplace | hplace⟩
    · exact hold
    · exact absurd hplace.symm (place_ne bn)
    · exact absurd ⟨rfl, hplace.2⟩ hi
  · intro hs
    rw [hr.kept i _ hs]
    exact hs

theorem Ready.disk_eq {i n : Nat} (hold : fileBlock m.disk (D i) n ≠ 0) :
    m'.disk (fileBlock m'.disk (D' i) n) = m.disk (fileBlock m.disk (D i) n) := by
  rw [fileBlock_eq_slot] at hold
  rw [fileBlock_eq_slot, fileBlock_eq_slot, hr.kept i _ hold, hr.disk i _ (place_ne _) hold]

theorem Ready.block_ne {i n : Nat} (hold : fileBlock m.disk (D i) n ≠ 0) (hi : ¬(i = a ∧ n = bn)) :
    fileBlock m'.disk (D' i) n ≠ x := by
  intro heq
  have hne := (hr.block_iff hi).mpr hold
  rw [← hr.block] at heq
  rw [fileBlock_eq_slot] at heq hne
  rw [fileBlock_eq_slot] at heq
  obtain ⟨hia, hpl⟩ := hr.laid.inj i _ a _ hne heq
  exact hi ⟨hia, place_inj hpl⟩

end Ready

theorem block_lt_iff {off n bn : Nat} (hfit : off % BSIZE + n ≤ BSIZE) (hbn : bn ≠ off / BSIZE) :
    bn * BSIZE < off + n ↔ bn * BSIZE < off := by
  unfold BSIZE at *
  omega

theorem append_block (hc : Contents m D F) {off x : Nat} {D' : Nat → Dinode} {c : List UInt8} {f : Nat → UInt8}
    (hr : Ready a (off / BSIZE) m D x m' D') (hoff : (F a).length = off) (hpos : 0 < c.length)
    (hfit : off % BSIZE + c.length ≤ BSIZE) (hfree : m'.freeblock ≤ FSSIZE) (hf : ∀ i < c.length, f i = c.getD i 0) :
    Laid (m'.wsect x ((m'.disk x).write (off % BSIZE) c.length f)) D' ∧
    Contents (m'.wsect x ((m'.disk x).write (off % BSIZE) c.length f)) D' (Function.update F a (F a ++ c)) := by
  have hne : fileBlock m'.disk (D' a) (off / BSIZE) ≠ 0 := by
    rw [hr.block]
    exact hr.ne
  obtain ⟨hlaid, hslots⟩ := hr.laid.write_data (x := (m'.disk x).write (off % BSIZE) c.length f) hfree hne
  rw [hr.block] at hlaid hslots
  refine ⟨hlaid, ?_⟩
  generalize hm : m'.wsect x ((m'.disk x).write (off % BSIZE) c.length f) = m'' at hlaid hslots ⊢
  have hdisk : m''.disk = Function.update m'.disk x ((m'.disk x).write (off % BSIZE) c.length f) := by rw [← hm]; rfl
  have hblocks : ∀ i bn, fileBlock m''.disk (D' i) bn = fileBlock m'.disk (D' i) bn := fun i bn => by
    rw [fileBlock_eq_slot, fileBlock_eq_slot, hslots]
  have hlen : (F a ++ c).length = off + c.length := by rw [List.length_append, hoff]
  refine ⟨fun i bn => ?_, fun i => ?_, fun i y hy => ?_⟩
  · rw [hblocks]
    by_cases hlast : i = a ∧ bn = off / BSIZE
    · obtain ⟨rfl, rfl⟩ := hlast
      have := Nat.div_mul_le_self off BSIZE
      rw [hr.block, Function.update_self, hlen]
      exact ⟨fun _ => by omega, fun _ => hr.ne⟩
    · rw [hr.block_iff hlast, hc.block]
      by_cases hia : i = a
      · subst hia
        rw [Function.update_self, hlen, hoff, block_lt_iff hfit fun h => hlast ⟨rfl, h⟩]
      · rw [Function.update_of_ne hia]
  · by_cases hptr : i = a ∧ NDIRECT ≤ off / BSIZE
    · obtain ⟨rfl, hge⟩ := hptr
      have : NDIRECT * BSIZE ≤ off / BSIZE * BSIZE := Nat.mul_le_mul_right _ hge
      have := Nat.div_mul_le_self off BSIZE
      rw [Function.update_self, hlen]
      exact ⟨fun _ => by omega, fun _ => hr.pointer hge⟩
    · rw [hr.pointer_iff hptr, hc.pointer]
      by_cases hia : i = a
      · subst hia
        have hlt : off / BSIZE < NDIRECT := Nat.lt_of_not_le fun hge => hptr ⟨rfl, hge⟩
        have : (off / BSIZE + 1) * BSIZE ≤ NDIRECT * BSIZE := Nat.mul_le_mul_right _ hlt
        rw [Nat.add_mul, Nat.one_mul] at this
        have := Nat.div_add_mod off BSIZE
        rw [Nat.mul_comm] at this
        rw [Function.update_self, hlen, hoff]
        omega
      · rw [Function.update_of_ne hia]
  · have hmod := Nat.mod_lt y (show 0 < BSIZE by decide)
    have hyd := Nat.div_add_mod y BSIZE
    have hod := Nat.div_add_mod off BSIZE
    unfold fileByte
    rw [hblocks]
    by_cases hlast : i = a ∧ y / BSIZE = off / BSIZE
    · -- the block that has been written: the bytes in front of `off` are the old ones
      obtain ⟨rfl, hyb⟩ := hlast
      rw [hyb] at hyd ⊢
      rw [Function.update_self] at hy ⊢
      rw [hlen] at hy
      rw [hr.block, hdisk, Function.update_self, Bytes.get_write _ _ _ _ _ hmod]
      by_cases hyo : off ≤ y
      · rw [if_pos (by omega), show y % BSIZE - off % BSIZE = y - off by omega, hf _ (by omega),
          List.getD_append_right _ _ _ _ (by omega), hoff]
      · have hold : fileBlock m.disk (D i) (off / BSIZE) ≠ 0 :=
          (hc.block i _).mpr (by rw [Nat.mul_comm]; omega)
        have hsame := hr.disk_eq hold
        rw [hr.block] at hsame
        rw [if_neg (by omega), List.getD_append _ _ _ _ (by omega), ← hc.byte i y (by omega), fileByte, hyb, hsame]
    · have hyF : y < (F i).length ∧ (Function.update F a (F a ++ c) i).getD y 0 = (F i).getD y 0 := by
        by_cases hia : i = a
        · subst hia
          rw [Function.update_self] at hy ⊢
          rw [hlen] at hy
          have hne : y / BSIZE ≠ off / BSIZE := fun h => hlast ⟨rfl, h⟩
          have hylt : y < off := by
            unfold BSIZE at hne hfit
            omega
          exact ⟨by omega, List.getD_append _ _ _ _ (by omega)⟩
        · rw [Function.update_of_ne hia] at hy ⊢
          exact ⟨hy, rfl⟩
      have hold : fileBlock m.disk (D i) (y / BSIZE) ≠ 0 := (hc.block i _).mpr (by rw [Nat.mul_comm]; omega)
      rw [hyF.2, ← hc.byte i y hyF.1, fileByte, hdisk, Function.update_of_ne (hr.block_ne hold hlast), hr.disk_eq hold]

theorem need_mono {l l' : Nat} (h : l ≤ l') : need l ≤ need l' := by
  unfold need NDIRECT BSIZE
  split <;> split <;> omega

theorem iappendLoop_spec (h : Laid m D) (hc : Contents m D F) {rounds off : Nat} {p : List UInt8}
    (hrounds : p.length ≤ rounds) (hoff : (F a).length = off) (hmax : off + p.length ≤ MAXFILE * BSIZE)
    (hfit : m.freeblock + need (off + p.length) ≤ FSSIZE + need off) :
    ∃ m' d', Image.iappendLoop rounds m (D a) off p = .ok (m', d', off + p.length) ∧
      Laid m' (Function.update D a d') ∧ Contents m' (Function.update D a d') (Function.update F a (F a ++ p)) ∧
      m'.freeblock + need off = m.freeblock + need (off + p.length) ∧ m'.freeinode = m.freeinode ∧
      (∀ b < nmeta, m'.disk b = m.disk b) ∧ d'.type = (D a).type ∧ d'.nlink = (D a).nlink := by
  induction rounds generalizing m D F off p with
  | zero =>
    obtain rfl := List.length_eq_zero_iff.mp (Nat.le_zero.mp hrounds)
    refine ⟨m, D a, rfl, ?_, ?_, rfl, rfl, fun _ _ => rfl, rfl, rfl⟩
    · rwa [Function.update_eq_self]
    · rwa [List.append_nil, Function.update_eq_self, Function.update_eq_self]
  | succ rounds ih =>
    by_cases hp : p.length > 0
    · have hBSIZE : 0 < BSIZE := by decide
      have hmod := Nat.mod_lt off hBSIZE
      have hdm := Nat.div_add_mod off BSIZE
      rw [Nat.mul_comm] at hdm
      have hlast : off / BSIZE < MAXFILE := Nat.div_lt_of_lt_mul (by rw [Nat.mul_comm]; omega)
      obtain ⟨n1, hn1⟩ : ∃ n1, n1 = min p.length ((off / BSIZE + 1) * BSIZE - off) := ⟨_, rfl⟩
      have hroom : (off / BSIZE + 1) * BSIZE - off = BSIZE - off % BSIZE := by
        rw [Nat.add_mul, Nat.one_mul]
        omega
      have hn1' : 0 < n1 ∧ n1 ≤ p.length ∧ off % BSIZE + n1 ≤ BSIZE := by omega
      have hneed := need_add hn1'.1 hn1'.2.2
      have hmono : need (off + n1) ≤ need (off + p.length) := need_mono (by omega)
      obtain ⟨x, m₁, d₁, hrun, hr, hfree⟩ := blockFor_spec h hc hoff hlast (by omega)
      have htake : (p.take n1).length = n1 := List.length_take_of_le hn1'.2.1
      obtain ⟨hlaid, hcont⟩ := append_block (c := p.take n1) (f := fun i => p.getD i 0) hc hr hoff (by omega) (by omega)
        (by omega) fun i hi => by
          rw [List.getD_eq_getElem?_getD, List.getD_eq_getElem?_getD, List.getElem?_take, if_pos (by omega)]
      rw [htake] at hlaid hcont
      obtain ⟨hlo, hhi⟩ := hr.bounds
      have hdrop : (p.drop n1).length = p.length - n1 := List.length_drop
      obtain ⟨m', d', hrun', hlaid', hcont', hfree', hino, hfront, htype, hnlink⟩ :=
        ih hlaid hcont (p := p.drop n1) (by omega)
          (by rw [Function.update_self, List.length_append, hoff, htake]) (by omega)
          (by
            have : (m₁.wsect x ((m₁.disk x).write (off % BSIZE) n1 fun i => p.getD i 0)).freeblock = m₁.freeblock := rfl
            rw [this, hdrop, show off + n1 + (p.length - n1) = off + p.length by omega]
            omega)
      rw [Function.update_self] at hrun' htype hnlink
      have hend : off + n1 + (p.drop n1).length = off + p.length := by omega
      rw [hend] at hrun' hfree'
      rw [Function.update_idem] at hlaid' hcont'
      rw [Function.update_idem, Function.update_self, List.append_assoc, List.take_append_drop] at hcont'
      refine ⟨m', d', ?_, hlaid', hcont', ?_, hino.trans hr.freeinode, fun b hb => ?_, ?_, ?_⟩
      · rw [Image.iappendLoop, if_pos hp, if_pos hlast, hrun]
        change (m₁.rsect x >>= _) = _
        rw [rsect_of_lt hr.laid (by omega), ← hn1, show off - off / BSIZE * BSIZE = off % BSIZE by omega]
        exact hrun'
      · have hfb : (m₁.wsect x ((m₁.disk x).write (off % BSIZE) n1 fun i => p.getD i 0)).freeblock = m₁.freeblock := rfl
        rw [hfb] at hfree'
        omega
      · rw [hfront b hb]
        exact (Function.update_of_ne (by omega) _ _).trans (hr.front b hb)
      · have := (hr.same a).1
        rw [Function.update_self] at this
        exact htype.trans this
      · have := (hr.same a).2.1
        rw [Function.update_self] at this
        exact hnlink.trans this
    · obtain rfl := List.length_eq_zero_iff.mp (Nat.le_zero.mp (Nat.le_of_not_gt hp))
      refine ⟨m, D a, by rw [Image.iappendLoop, if_neg hp]; rfl, ?_, ?_, rfl, rfl, fun _ _ => rfl, rfl, rfl⟩
      · rwa [Function.update_eq_self]
      · rwa [List.append_nil, Function.update_eq_self, Function.update_eq_self]

/-- Between two calls of `iappend` the inodes are the ones on disk. -/
structure Good (m : Image) (D : Nat → Dinode) (F : Nat → List UInt8) : Prop where
  laid : Laid m D
  contents : Contents m D F
  inode : ∀ i < NINODES, dinode sb m.disk i = D i
  size : ∀ i, (D i).size.toNat = (F i).length

theorem iblock_lt {i : Nat} (hi : i < NINODES) : sb.IBLOCK i < sb.bmapstart := by
  have h : sb.IBLOCK i = i / 16 + 32 := rfl
  have h' : sb.bmapstart = 45 := rfl
  unfold NINODES at hi
  omega

theorem bmapstart_lt : sb.bmapstart < nmeta := by decide

theorem winode_spec (h : Laid m D) {inum : Nat} (hi : inum < NINODES) {ip : Dinode} :
    m.winode inum ip = .ok (m.wsect (sb.IBLOCK inum) (inodeBlock sb m.disk inum ip)) := by
  have := iblock_lt hi
  have := bmapstart_lt
  have : nmeta ≤ FSSIZE := by decide
  unfold Image.winode
  rw [rsect_of_lt h (by omega)]
  rfl

theorem rinode_spec (h : Laid m D) {inum : Nat} (hi : inum < NINODES) :
    m.rinode inum = .ok (dinode sb m.disk inum) := by
  have := iblock_lt hi
  have := bmapstart_lt
  have : nmeta ≤ FSSIZE := by decide
  unfold Image.rinode
  rw [rsect_of_lt h (by omega)]
  rfl

theorem Contents.write_meta (h : Laid m D) (hc : Contents m D F) {n : Nat} {x : Block} (hn : n < nmeta) :
    Contents (m.wsect n x) D F := by
  obtain ⟨-, hslots⟩ := h.write_meta (x := x) hn
  refine ⟨fun i bn => ?_, hc.pointer, fun i y hy => ?_⟩
  · rw [fileBlock_eq_slot, hslots i, ← fileBlock_eq_slot]
    exact hc.block i bn
  · have hb := (hc.block i (y / BSIZE)).mpr (by have := Nat.div_mul_le_self y BSIZE; omega)
    rw [← hc.byte i y hy]
    unfold fileByte
    rw [fileBlock_eq_slot] at hb ⊢
    rw [hslots i, fileBlock_eq_slot]
    congr 1
    refine Function.update_of_ne ?_ _ _
    have := (h.used i _ hb).1
    omega

section Congr
variable {D' : Nat → Dinode} (hD : ∀ i, (D' i).addr = (D i).addr)
include hD

theorem Laid.congr (h : Laid m D) : Laid m D' :=
  h.of_slots rfl rfl (fun i => slot_congr (hD i) fun _ => rfl) fun _ _ => rfl

theorem Contents.congr (hc : Contents m D F) : Contents m D' F := by
  have hb : ∀ i bn, fileBlock m.disk (D' i) bn = fileBlock m.disk (D i) bn := fun i bn => by
    rw [fileBlock_eq_slot, fileBlock_eq_slot, slot_congr (hD i) fun _ => rfl]
  refine ⟨fun i bn => ?_, fun i => ?_, fun i y hy => ?_⟩
  · rw [hb]
    exact hc.block i bn
  · rw [hD]
    exact hc.pointer i
  · unfold fileByte
    rw [hb]
    exact hc.byte i y hy

end Congr

theorem update_addr {inum : Nat} {ip : Dinode} (haddr : ip.addr = (D inum).addr) (i : Nat) :
    (Function.update D inum ip i).addr = (D i).addr := by
  by_cases hii : i = inum
  · subst hii
    rw [Function.update_self, haddr]
  · rw [Function.update_of_ne hii]

theorem dinode_winode {inum : Nat} {ip : Dinode} {i : Nat} (hinode : i ≠ inum → dinode sb m.disk i = D i) :
    dinode sb (m.wsect (sb.IBLOCK inum) (inodeBlock sb m.disk inum ip)).disk i = Function.update D inum ip i := by
  by_cases hii : i = inum
  · subst hii
    rw [Function.update_self]
    exact dinode_inodeBlock
  · rw [Function.update_of_ne hii, ← hinode hii]
    exact dinode_inodeBlock_ne hii

theorem good_winode (h : Laid m D) (hc : Contents m D F) {inum : Nat} (hi : inum < NINODES) {ip : Dinode}
    (haddr : ip.addr = (D inum).addr) (hsize : ip.size.toNat = (F inum).length)
    (hinode : ∀ i < NINODES, i ≠ inum → dinode sb m.disk i = D i) (hsizes : ∀ i, i ≠ inum → (D i).size.toNat = (F i).length) :
    Good (m.wsect (sb.IBLOCK inum) (inodeBlock sb m.disk inum ip)) (Function.update D inum ip) F := by
  have hmeta : sb.IBLOCK inum < nmeta := (iblock_lt hi).trans bmapstart_lt
  refine ⟨(h.write_meta hmeta).1.congr (update_addr haddr), (hc.write_meta h hmeta).congr (update_addr haddr),
    fun i hin => dinode_winode (hinode i hin), fun i => ?_⟩
  by_cases hii : i = inum
  · subst hii
    rw [Function.update_self, hsize]
  · rw [Function.update_of_ne hii, hsizes i hii]

theorem iappend_spec (h : Good m D F) (ha : a < NINODES) {p : List UInt8} (hmax : (F a).length + p.length ≤ MAXFILE * BSIZE)
    (hfit : m.freeblock + need ((F a).length + p.length) ≤ FSSIZE + need (F a).length) :
    ∃ m' d', m.iappend a p = .ok m' ∧ Good m' (Function.update D a d') (Function.update F a (F a ++ p)) ∧
      m'.freeblock + need (F a).length = m.freeblock + need ((F a).length + p.length) ∧ m'.freeinode = m.freeinode ∧
      d'.type = (D a).type ∧ d'.nlink = (D a).nlink := by
  obtain ⟨m₁, d₁, hrun, hlaid, hcont, hfree, hino, hfront, htype, hnlink⟩ :=
    iappendLoop_spec h.laid h.contents (Nat.le_refl p.length) rfl hmax hfit
  have hlt : (F a).length + p.length < 2 ^ 32 := by unfold MAXFILE NDIRECT NINDIRECT BSIZE at hmax; omega
  have haddr : (d₁.setSize ((F a).length + p.length)).addr = (Function.update D a d₁ a).addr := by
    rw [Function.update_self]
    rfl
  have hgood := good_winode hlaid hcont ha haddr
    (by rw [Function.update_self, List.length_append]; exact UInt32.toNat_ofNat_of_lt' hlt)
    (fun i hi hne => by
      rw [Function.update_of_ne hne, ← h.inode i hi]
      unfold dinode
      rw [hfront _ (by have := iblock_lt hi; have := bmapstart_lt; omega)])
    (fun i hne => by rw [Function.update_of_ne hne, Function.update_of_ne hne, h.size i])
  rw [Function.update_idem] at hgood
  refine ⟨_, d₁.setSize ((F a).length + p.length), ?_, hgood, hfree, hino, htype, hnlink⟩
  unfold Image.iappend
  rw [rinode_spec h.laid ha, h.inode a ha]
  change (Image.iappendLoop p.length m (D a) (D a).size.toNat p >>= _) = _
  rw [h.size a, hrun]
  exact winode_spec hlaid ha

end Contents

end Xv6.Mkfs
