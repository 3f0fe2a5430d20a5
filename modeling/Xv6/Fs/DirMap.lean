import Xv6.Fs.Faults
import Xv6.Fs.Paths
import Xv6.Fs.Sysfile

/-! Directories as finite maps from names to inode numbers. -/

namespace Xv6.Fs
open Lib

/-- The names of two entries agree: in their first `DIRSIZ` bytes up to the first NUL. -/
def Dirent.same (de de' : Dirent) : Bool := strncmpEq de.char de'.char DIRSIZ 0

theorem strncmpEq_comm (p q : Nat → UInt8) (n i : Nat) : strncmpEq p q n i = strncmpEq q p n i := by
  induction n generalizing i with
  | zero => rfl
  | succ n ih =>
    have hiff : (p i ≠ 0 ∧ p i = q i) ↔ (q i ≠ 0 ∧ q i = p i) :=
      ⟨fun h => ⟨h.2 ▸ h.1, h.2.symm⟩, fun h => ⟨h.2 ▸ h.1, h.2.symm⟩⟩
    simp only [strncmpEq, hiff, ih, eq_comm]

theorem strncmpEq_congr {p p' q : Nat → UInt8} {n i : Nat}
    (h : ∀ k, i ≤ k → k < i + n → (∀ j, i ≤ j → j < k → p j ≠ 0) → p k = p' k) :
    strncmpEq p q n i = strncmpEq p' q n i := by
  induction n generalizing i with
  | zero => rfl
  | succ n ih =>
    have hi : p i = p' i := h i (Nat.le_refl _) (by omega) fun j hj hj' => absurd hj' (by omega)
    rw [strncmpEq, strncmpEq, ← hi]
    split
    · rename_i hne
      refine ih fun k hk hk' hbefore => h k (by omega) (by omega) fun j hj hj' => ?_
      rcases Nat.eq_or_lt_of_le hj with rfl | hlt
      · exact hne.1
      · exact hbefore j hlt hj'
    · rfl

theorem charAt_takeWhile (l : List UInt8) {k : Nat} (h : ∀ j < k, charAt l j ≠ 0) :
    charAt (l.takeWhile (· ≠ 0)) k = charAt l k := by
  induction l generalizing k with
  | nil => rfl
  | cons c l ih =>
    by_cases hc : c = 0
    · cases k with
      | zero => simp [hc, charAt]
      | succ k => exact absurd hc (h 0 (Nat.succ_pos k))
    · rw [List.takeWhile_cons_of_pos (by simpa using hc)]
      cases k with
      | zero => rfl
      | succ k => exact ih fun j hj => h (j + 1) (by omega)

theorem same_make (name : List UInt8) (inum : Nat) (de : Dirent) : (Dirent.make name inum).same de = de.named name := by
  refine (strncmpEq_congr fun k _ hk hbefore => ?_).symm
  unfold Dirent.char Dirent.make
  rw [dif_pos (by omega)]
  exact (charAt_takeWhile name fun j hj => hbefore j (Nat.zero_le j) hj).symm

theorem same_comm (de de' : Dirent) : de.same de' = de'.same de := strncmpEq_comm ..

def Distinct (ents : List Dirent) : Prop :=
  ∀ (a b : Nat) (x y : Dirent), ents[a]? = some x → ents[b]? = some y → x.inum ≠ 0 → y.inum ≠ 0 → x.same y = true → a = b

def put (ents : List Dirent) (k : Nat) (de : Dirent) : List Dirent :=
  if k < ents.length then ents.set k de else ents ++ [de]

theorem put_getElem? {ents : List Dirent} {k : Nat} (hk : k ≤ ents.length) (de : Dirent) (a : Nat) :
    (put ents k de)[a]? = if a = k then some de else ents[a]? := by
  unfold put
  split
  · rename_i hlt
    rw [List.getElem?_set]
    by_cases ha : k = a
    · subst ha
      simp [hlt]
    · rw [if_neg ha, if_neg (Ne.symm ha)]
  · obtain rfl : k = ents.length := by omega
    by_cases ha : a = ents.length
    · subst ha
      simp
    · rw [if_neg ha]
      rcases Nat.lt_or_gt_of_ne ha with hlt | hgt
      · rw [List.getElem?_append_left hlt]
      · rw [List.getElem?_eq_none (by simp; omega), List.getElem?_eq_none (by omega)]

theorem Distinct.put {ents : List Dirent} {k : Nat} {de : Dirent} (h : Distinct ents) (hk : k ≤ ents.length)
    (hnew : de.inum ≠ 0 → ∀ y ∈ ents, y.inum ≠ 0 → de.same y = false) : Distinct (put ents k de) := by
  intro a b x y ha hb hx hy hsame
  rw [put_getElem? hk] at ha hb
  by_cases hak : a = k <;> by_cases hbk : b = k
  · rw [hak, hbk]
  · rw [if_pos hak] at ha
    rw [if_neg hbk] at hb
    obtain rfl := Option.some.inj ha
    rw [hnew hx y (List.mem_of_getElem? hb) hy] at hsame
    exact Bool.noConfusion hsame
  · rw [if_neg hak] at ha
    rw [if_pos hbk] at hb
    obtain rfl := Option.some.inj hb
    rw [same_comm, hnew hy x (List.mem_of_getElem? ha) hx] at hsame
    exact Bool.noConfusion hsame
  · rw [if_neg hak] at ha
    rw [if_neg hbk] at hb
    exact h a b x y ha hb hx hy hsame

def firstFree (ents : List Dirent) : Nat := ents.findIdx (·.inum = 0)

theorem firstFree_le (ents : List Dirent) : firstFree ents ≤ ents.length := List.findIdx_le_length

section
variable {sb : Superblock} {s t : Sys} {e : Fin NINODE}

theorem length_dirents (disk : Disk) (d : Dinode) : (dirents disk d).length = d.size.toNat / DESIZE := by simp [dirents]

theorem dirents_getElem? (disk : Disk) (d : Dinode) (k : Nat) :
    (dirents disk d)[k]? = if k < d.size.toNat / DESIZE then some (direntAt disk d k) else none := by
  unfold dirents
  rw [List.getElem?_map]
  split
  · rename_i hk
    rw [List.getElem?_range hk]
    rfl
  · rename_i hk
    rw [List.getElem?_eq_none (by rw [List.length_range]; omega)]
    rfl

theorem direntAt_congr {disk disk' : Disk} {d d' : Dinode} {k : Nat}
    (h : ∀ x, DESIZE * k ≤ x → x < DESIZE * k + DESIZE → fileByte disk' d' x = fileByte disk d x) :
    direntAt disk' d' k = direntAt disk d k := by
  have hD : DESIZE = 16 := rfl
  rw [Nat.mul_comm] at h
  unfold direntAt
  rw [h (k * DESIZE) (by omega) (by omega), h (k * DESIZE + 1) (by omega) (by omega)]
  congr 1
  funext i
  have hi := i.isLt
  unfold DIRSIZ at hi
  exact h _ (by omega) (by omega)

theorem dirents_congr {disk disk' : Disk} {d d' : Dinode} (h : content disk' d' = content disk d) :
    d'.size = d.size ∧ dirents disk' d' = dirents disk d := by
  have hsize : d'.size = d.size := by
    have := congrArg List.length h
    rw [length_content, length_content] at this
    exact UInt32.toNat_inj.mp this
  refine ⟨hsize, List.ext_getElem? fun k => ?_⟩
  rw [dirents_getElem?, dirents_getElem?, hsize]
  split
  · rename_i hk
    have hD : DESIZE = 16 := rfl
    rw [direntAt_congr fun x _ hx => ?_]
    have hlt : x < d.size.toNat := by
      have := (Nat.le_div_iff_mul_le (show 0 < DESIZE by decide)).mp hk
      rw [Nat.succ_mul, Nat.mul_comm] at this
      omega
    have hx' := congrArg (·[x]?) h
    simp only [content_getElem?, hsize, if_pos hlt] at hx'
    exact Option.some.inj hx'
  · rfl

/-- A locked directory of whole entries, on a consistent volume. -/
structure Dir (sb : Superblock) (s : Sys) (e : Fin NINODE) : Prop where
  volume : Volume sb s
  locked : Locked sb s e
  type : (s.itable e).d.type = T_DIR
  whole : DESIZE ∣ (s.itable e).d.size.toNat

def entsOf (s : Sys) (e : Fin NINODE) : List Dirent := dirents s.disk (s.itable e).d

theorem Dir.size (h : Dir sb s e) : (s.itable e).d.size.toNat = DESIZE * (entsOf s e).length := by
  unfold entsOf
  rw [length_dirents, Nat.mul_div_cancel' h.whole]

theorem Dir.entries (h : Dir sb s e) : Entries s e (entsOf s e).length := by
  refine ⟨h.type, h.size, fun bn hbn => ?_⟩
  have hfull := h.volume.full _ h.locked.inum bn
  rw [h.volume.inodeOf_self h.locked] at hfull
  exact hfull hbn

theorem entsOf_getElem? (s : Sys) (e : Fin NINODE) (k : Nat) :
    (entsOf s e)[k]? = if k < (entsOf s e).length then some (direntAt s.disk (s.itable e).d k) else none := by
  unfold entsOf
  rw [dirents_getElem?, length_dirents]

def typed (e : Fin NINODE) : Frame Sys := .of fun s => (s.itable e).d.type

theorem typed_logWrite (b : Nat) (x : Block) : Stable (typed e) (fun _ => True) (logWrite sb b x) := by
  unfold logWrite
  refine .bind (.view _) fun n => .bind (.stopIf trivial) fun _ => ?_
  exact .bind (.view _) fun n => .bind (.stopIf trivial) fun _ => .change fun s => rfl

theorem typed_onInode {f : Inode → Inode} (h : ∀ x, (f x).d.type = x.d.type) : Stable (typed e) (fun _ => True) (onInode e f) :=
  .change fun s => by
    change ((s.setInode e (f (s.itable e))).itable e).d.type = (s.itable e).d.type
    rw [setInode_self, h]

theorem typed_writei (src : Source) (off n : Nat) : Stable (typed e) (fun _ => True) (writei sb e src off n) := by
  have hloop : ∀ rounds tot off, Stable (typed e) (fun _ => True) (writeiLoop sb e src n rounds tot off) := by
    intro rounds
    induction rounds with
    | zero => exact fun _ _ => .pure _
    | succ rounds ih =>
      intro tot off
      refine .ite (fun _ => ?_) fun _ => .pure _
      refine .bind (stable_bmap typed_logWrite (fun _ _ => typed_onInode fun _ => rfl) _) fun addr => ?_
      refine .ite (fun _ => .pure _) fun _ => .bind (.view _) fun x => .ite (fun _ => ?_) fun _ => ?_
      · exact .bind (typed_logWrite _ _) fun _ => ih _ _
      · exact .bind (.change fun s => rfl) fun _ => .pure _
  exact stable_writei typed_logWrite (fun _ => typed_onInode fun _ => rfl) (hloop _ _ _)

theorem wp_any {α : Type} (m : M α) (s : Sys) : wp m (fun _ _ => True) (fun _ _ => True) s := by
  unfold wp
  split <;> trivial

theorem wp_writei_one {l : List UInt8} {off n : Nat} (hn : 0 < n) (hroom : off % BSIZE + n ≤ BSIZE) :
    wp (writei sb e (.kernel l) off n) (fun r _ => r = -1 ∨ r = 0 ∨ r = n) (fun _ _ => True) s := by
  have hloop : ∀ rounds, n = rounds + 1 → wp (writeiLoop sb e (.kernel l) n (rounds + 1) 0 off) (fun r _ => r.1 = 0 ∨ r.1 = n)
      (fun _ _ => True) s := by
    intro rounds hr
    have hmin : min (n - 0) (BSIZE - off % BSIZE) = n := by omega
    rw [writeiLoop, if_pos hn, wp_bind]
    refine wp_mono (wp_any _ _) (fun addr t _ => ?_) fun _ _ _ => trivial
    rw [wp_ite]
    split
    · exact .inl rfl
    · rw [wp_bind]
      refine wp_mono (wp_any _ _) (fun x u _ => ?_) fun _ _ _ => trivial
      simp only [hmin]
      rw [if_pos (show n ≤ (Source.kernel l).copied 0 n from Nat.le_refl _), wp_bind]
      refine wp_mono (wp_any _ _) (fun _ v _ => ?_) fun _ _ _ => trivial
      cases rounds with
      | zero => exact .inr (Nat.zero_add n)
      | succ rounds =>
        rw [writeiLoop, if_neg (by omega)]
        exact .inr (Nat.zero_add n)
  unfold writei
  rw [wp_bind, wp_view, wp_ite]
  split
  · exact .inl rfl
  · rw [wp_ite]
    split
    · exact .inl rfl
    · obtain ⟨rounds, hr⟩ := Nat.exists_eq_succ_of_ne_zero (by omega : n ≠ 0)
      rw [wp_bind]
      have hl := hloop rounds hr
      rw [← Nat.succ_eq_add_one, ← hr] at hl
      refine wp_mono hl (fun r t hr => ?_) fun _ _ _ => trivial
      rw [wp_bind, wp_view, wp_bind]
      refine wp_mono (wp_any _ _) (fun _ u _ => ?_) fun _ _ _ => trivial
      rw [wp_bind]
      refine wp_mono (wp_any _ _) (fun _ v _ => ?_) fun _ _ _ => trivial
      rw [wp_pure]
      omega

def CannotGrow (sb : Superblock) (s : Sys) (e : Fin NINODE) : Prop :=
  NoSpace sb s.disk ∨ MAXFILE * BSIZE < DESIZE * ((entsOf s e).length + 1)

theorem Dir.wrote {k n tot : Nat} {de : Dirent} (h : Dir sb s e) (hk : k ≤ (entsOf s e).length)
    (hw : Wrote sb e (.kernel de.bytes) (DESIZE * k) n tot s t) (htype : (t.itable e).d.type = (s.itable e).d.type)
    (htot : tot = 0 ∨ tot = DESIZE) :
    Dir sb t e ∧ entsOf t e = if tot = 0 then entsOf s e else put (entsOf s e) k de := by
  have hD : DESIZE = 16 := rfl
  have hsize := h.size
  have hoff : DESIZE * k ≤ (s.itable e).d.size.toNat := by
    rw [hsize]
    exact Nat.mul_le_mul_left _ hk
  have hwhole : DESIZE ∣ (t.itable e).d.size.toNat := by
    rw [hw.size, hsize]
    rcases Nat.le_total (DESIZE * (entsOf s e).length) (DESIZE * k + tot) with hle | hle
    · rw [Nat.max_eq_right hle]
      rcases htot with rfl | rfl
      · exact Nat.dvd_mul_right _ _
      · exact Nat.dvd_add (Nat.dvd_mul_right _ _) (Nat.dvd_refl _)
    · rw [Nat.max_eq_left hle]
      exact Nat.dvd_mul_right _ _
  have hdir : Dir sb t e := by
    refine ⟨hw.volume h.volume h.locked hoff, ⟨?_, hw.valid, ?_, ?_⟩, htype.trans h.type, hwhole⟩
    · rw [hw.aside.ref]
      exact h.locked.ref
    · rw [hw.aside.locked]
      exact h.locked.locked
    · rw [hw.aside.inum]
      exact h.locked.inum
  refine ⟨hdir, ?_⟩
  rcases htot with rfl | rfl
  · rw [if_pos rfl]
    have hcontent := hw.content h.volume h.locked hoff
    have hnone : splice (content s.disk (s.itable e).d) (DESIZE * k) ((List.range 0).map (Source.kernel de.bytes).byte) =
        content s.disk (s.itable e).d := by
      simp [splice]
    exact (dirents_congr (hcontent.trans hnone)).2
  · rw [if_neg (by decide)]
    have hlen : (entsOf t e).length = if k < (entsOf s e).length then (entsOf s e).length else (entsOf s e).length + 1 := by
      have hsz := hdir.size
      rw [hw.size, hsize, hD] at hsz
      split <;> omega
    refine List.ext_getElem? fun a => ?_
    rw [put_getElem? hk, entsOf_getElem?, hlen]
    by_cases ha : a = k
    · subst ha
      rw [if_pos rfl, if_pos (by split <;> omega), ← ofBytes_slice]
      have hslice : slice t e (DESIZE * a) DESIZE = de.bytes := by
        refine List.ext_getElem? fun x => ?_
        unfold slice
        rw [List.getElem?_map]
        by_cases hx : x < DESIZE
        · have hbyte := (hw.block h.volume h.locked (x := DESIZE * a + x) (by omega)).1 ⟨by omega, by omega⟩
          rw [List.getElem?_range hx, Option.map_some, hbyte, Nat.add_sub_cancel_left]
          have hxl : x < de.bytes.length := by rw [length_bytes]; exact hx
          change some (de.bytes.getD x 0) = _
          rw [List.getElem?_eq_getElem hxl, List.getD_eq_getElem _ _ hxl]
        · rw [List.getElem?_eq_none (by rw [List.length_range]; omega), List.getElem?_eq_none (by rw [length_bytes]; omega)]
          rfl
      rw [hslice, ofBytes_bytes]
    · rw [if_neg ha, entsOf_getElem?]
      by_cases hlt : a < (entsOf s e).length
      · rw [if_pos (by split <;> omega), if_pos hlt]
        rw [direntAt_congr fun x hx hx' => ?_]
        rw [hD] at hx hx'
        have hxs : x < (s.itable e).d.size.toNat := by
          rw [hsize, hD]
          omega
        exact (hw.block h.volume h.locked (x := x) (by omega)).2 (by rw [hD]; omega) hxs
      · rw [if_neg (by split <;> omega), if_neg hlt]

theorem Dir.wp_write (ho : sb.Ordered) (h : Dir sb s e) {k : Nat} (hk : k ≤ (entsOf s e).length) (de : Dirent) :
    wp (writei sb e (.kernel de.bytes) (DESIZE * k) DESIZE) (fun r t => Dir sb t e ∧ (t.itable e).inum = (s.itable e).inum ∧
      (r = DESIZE ∧ entsOf t e = put (entsOf s e) k de ∨
        r ≠ DESIZE ∧ entsOf t e = entsOf s e ∧ CannotGrow sb t e)) (fun e _ => LogPanic e) s := by
  have hD : DESIZE = 16 := rfl
  have hsmall := h.entries.small
  have hkm : DESIZE * k ≤ DESIZE * (entsOf s e).length := Nat.mul_le_mul_left _ hk
  have hoff : DESIZE * k ≤ (s.itable e).d.size.toNat := by rwa [h.size]
  by_cases hmax : DESIZE * k + DESIZE ≤ MAXFILE * BSIZE
  · have hwhole : (Source.kernel de.bytes).Whole := fun _ _ => .inl (Nat.le_refl _)
    have hroom : DESIZE * k % BSIZE + DESIZE ≤ BSIZE := by
      unfold DESIZE BSIZE
      omega
    have hwp := wp_and ((typed_writei (e := e) _ _ _).and_wp
      (wp_writei_log ho h.locked.valid (h.volume.sound h.locked) hwhole hoff hmax)) (wp_writei_one (by decide) hroom)
    refine wp_mono hwp (fun r t ⟨⟨⟨tot, hr, hw⟩, htype⟩, hcount⟩ => ?_) fun _ _ he => he.1
    have htot : tot = 0 ∨ tot = DESIZE := by omega
    obtain ⟨hdir, hents⟩ := h.wrote hk hw htype htot
    refine ⟨hdir, hw.aside.inum, ?_⟩
    rcases htot with h0 | h16
    · rw [if_pos h0] at hents
      refine .inr ⟨by omega, hents, .inl ((hw.short (by omega)).resolve_right fun ⟨m, hm⟩ => Nat.lt_irrefl m hm)⟩
    · rw [if_neg (by omega)] at hents
      exact .inl ⟨by omega, hents⟩
  · have href : Refused (s.itable e).d.size.toNat (DESIZE * k) DESIZE := .inr (.inr (by omega))
    refine wp_mono (wp_writei_refused sb _ (by omega) (by decide) href) (fun r t ⟨hr, ht⟩ => ?_) fun _ _ hf => hf.elim
    subst ht
    exact ⟨h, rfl, .inr ⟨by omega, rfl, .inr (by rw [Nat.mul_succ]; omega)⟩⟩

/-! ### Looking up and linking -/

/-- Nothing has changed but free entries of the inode table and what no call reads. -/
structure Quiet (s t : Sys) : Prop where
  disk : t.disk = s.disk
  ref : ∀ e, (t.itable e).ref = (s.itable e).ref
  entry : ∀ e, 0 < (s.itable e).ref → t.itable e = s.itable e

theorem Quiet.inodeOf_eq (h : Quiet s t) (i : Nat) : inodeOf sb t i = inodeOf sb s i := by
  have htest : (fun e => decide (0 < (t.itable e).ref) && (t.itable e).valid && (t.itable e).inum == i) =
      fun e => decide (0 < (s.itable e).ref) && (s.itable e).valid && (s.itable e).inum == i := by
    funext e
    by_cases he : 0 < (s.itable e).ref
    · rw [h.entry e he]
    · rw [h.ref e, decide_eq_false he, Bool.false_and, Bool.false_and, Bool.false_and, Bool.false_and]
  unfold inodeOf
  rw [htest, h.disk]
  split
  · rename_i e hfind
    have hfound := List.find?_some hfind
    simp only [Bool.and_eq_true, decide_eq_true_eq] at hfound
    rw [h.entry e hfound.1.1]
  · rfl

theorem Dir.quiet (h : Dir sb s e) (hq : Quiet s t) : Dir sb t e ∧ entsOf t e = entsOf s e := by
  have hentry := hq.entry e h.locked.ref
  refine ⟨⟨⟨fun a b ha hb heq => ?_, ?_, ?_, ?_, ?_⟩, ?_, by rw [hentry]; exact h.type, by rw [hentry]; exact h.whole⟩, ?_⟩
  · rw [hq.ref] at ha hb
    rw [hq.entry a ha, hq.entry b hb] at heq
    exact h.volume.uniq a b ha hb heq
  · rw [hq.disk]
    exact h.volume.front
  · intro i hi
    rw [hq.inodeOf_eq, hq.disk]
    exact h.volume.used i hi
  · intro i hi i' hi'
    rw [hq.inodeOf_eq, hq.inodeOf_eq, hq.disk]
    exact h.volume.inj i hi i' hi'
  · intro i hi
    rw [hq.inodeOf_eq, hq.disk]
    exact h.volume.full i hi
  · obtain ⟨href, hv, hl, hi⟩ := h.locked
    exact ⟨by rw [hentry]; exact href, by rw [hentry]; exact hv, by rw [hentry]; exact hl, by rw [hentry]; exact hi⟩
  · unfold entsOf
    rw [hentry, hq.disk]

def TableFull (e : Stop) : Prop := e = .panic "iget: no inodes"

theorem wp_iget_any (j : Nat) : wp (iget j) (fun ip u => (u.itable ip).inum = j ∧ u.disk = s.disk ∧
    (∀ e, e ≠ ip → u.itable e = s.itable e) ∧ (0 < (s.itable ip).ref ∧ u.itable ip = (s.itable ip).setRef ((s.itable ip).ref + 1) ∨
      (s.itable ip).ref = 0 ∧ (u.itable ip).ref = 1 ∧ (u.itable ip).valid = false)) (fun e _ => TableFull e) s := by
  cases hfind : (List.finRange NINODE).find? (fun e => 0 < (s.itable e).ref && (s.itable e).inum == j) with
  | some ip =>
    have hfound := List.find?_some hfind
    rw [Bool.and_eq_true, decide_eq_true_eq, beq_iff_eq] at hfound
    unfold iget onInode
    rw [wp_bind, wp_view, hfind]
    simp only
    rw [wp_bind, wp_change, wp_pure, setInode_self]
    exact ⟨hfound.2, rfl, fun e he => by rw [setInode_itable, if_neg he], .inl ⟨hfound.1, rfl⟩⟩
  | none =>
    unfold iget onInode
    rw [wp_bind, wp_view, hfind]
    simp only
    rw [wp_bind, wp_view]
    split
    · rename_i ip hfree
      have hzero := List.find?_some hfree
      rw [beq_iff_eq] at hzero
      rw [wp_bind, wp_change, wp_pure, setInode_self]
      exact ⟨rfl, rfl, fun e he => by rw [setInode_itable, if_neg he], .inr ⟨hzero, rfl, rfl⟩⟩
    · rfl

theorem wp_iget_iput (sb : Superblock) (j : Nat) : wp (iget j) (fun ip u => wp (iput sb ip) (fun _ v => Quiet s v) (fun _ _ => False) u)
    (fun e _ => TableFull e) s := by
  refine wp_post (wp_iget_any j) fun ip u ⟨_, hdisk, hother, hself⟩ => ?_
  unfold iput onInode
  simp only [wp_bind, wp_view, wp_change, wp_doIf]
  have hquiet : (u.itable ip).ref = (s.itable ip).ref + 1 → (0 < (s.itable ip).ref →
      (u.itable ip).setRef ((u.itable ip).ref - 1) = s.itable ip) →
      Quiet s (u.setInode ip ((u.itable ip).setRef ((u.itable ip).ref - 1))) := by
    intro href hsame
    refine ⟨hdisk, fun e => ?_, fun e he => ?_⟩
    · by_cases hne : e = ip
      · subst hne
        rw [setInode_self]
        change (u.itable e).ref - 1 = _
        omega
      · rw [setInode_itable, if_neg hne, hother e hne]
    · by_cases hne : e = ip
      · subst hne
        rw [setInode_self]
        exact hsame he
      · rw [setInode_itable, if_neg hne, hother e hne]
  rcases hself with ⟨hpos, hx⟩ | ⟨hzero, hone, hvalid⟩
  · rw [hx] at hquiet ⊢
    refine ⟨fun hlast => ?_, fun _ => hquiet rfl fun _ => ?_⟩
    · have : (s.itable ip).ref + 1 = 1 := hlast.1
      omega
    · change { s.itable ip with ref := (s.itable ip).ref + 1 - 1 } = s.itable ip
      rw [Int.add_sub_cancel]
  · refine ⟨fun hlast => ?_, fun _ => hquiet (by omega) fun hpos => absurd hpos (by omega)⟩
    rw [hvalid] at hlast
    exact absurd hlast.2.1 (by decide)

theorem holds_false_iff {m : Nat} {name : List UInt8} (hm : (entsOf s e).length = m) :
    (∀ j < m, (direntAt s.disk (s.itable e).d j).holds name = false) ↔ ∀ de ∈ entsOf s e, de.holds name = false := by
  subst hm
  constructor
  · intro h de hde
    obtain ⟨k, hk⟩ := List.mem_iff_getElem?.mp hde
    rw [entsOf_getElem?] at hk
    split at hk
    · rename_i hlt
      rw [← Option.some.inj hk]
      exact h k hlt
    · cases hk
  · intro h k hk
    refine h _ (List.mem_of_getElem? (i := k) ?_)
    rw [entsOf_getElem?, if_pos hk]

theorem Dir.wp_dirlookup (h : Dir sb s e) (name : List UInt8) :
    wp (dirlookup sb e name) (fun r t => (r = none ↔ ∀ de ∈ entsOf s e, de.holds name = false) ∧
      ∀ ip off, r = some (ip, off) → ∃ k de, (entsOf s e)[k]? = some de ∧ de.holds name = true ∧ off = DESIZE * k ∧
        (t.itable ip).inum = de.inum.toNat) (fun e _ => TableFull e) s := by
  refine wp_dirlookup_at h.entries (fun k hk hname _ => ?_) fun hall => ⟨⟨fun _ => (holds_false_iff rfl).mp hall,
    fun _ => rfl⟩, nofun⟩
  have hget : (entsOf s e)[k]? = some (direntAt s.disk (s.itable e).d k) := by rw [entsOf_getElem?, if_pos hk]
  refine wp_post (wp_iget_any _) fun ip u ⟨hinum, _⟩ => ⟨⟨nofun, fun hall => ?_⟩, fun ip' off heq => ?_⟩
  · rw [hall _ (List.mem_of_getElem? hget)] at hname
    exact Bool.noConfusion hname
  · obtain ⟨rfl, rfl⟩ := Prod.mk.inj (Option.some.inj heq)
    exact ⟨k, _, hget, hname, rfl, hinum⟩

theorem Dir.wp_emptySlot (h : Dir sb s e) :
    wp (emptySlot sb e) (fun off t => off = DESIZE * firstFree (entsOf s e) ∧ t = s) (fun _ _ => False) s := by
  have hD : DESIZE = 16 := rfl
  have hsmall := h.entries.small
  generalize hm : (entsOf s e).length = m at hsmall
  have hidx : ∀ k ≤ m, (∀ j < k, (direntAt s.disk (s.itable e).d j).inum ≠ 0) →
      (k < m → (direntAt s.disk (s.itable e).d k).inum = 0) → firstFree (entsOf s e) = k := by
    intro k hk hbefore hat
    unfold firstFree
    have hget : ∀ j (hj : j < (entsOf s e).length), (entsOf s e)[j] = direntAt s.disk (s.itable e).d j := fun j hj => by
      have := entsOf_getElem? s e j
      rw [if_pos hj, List.getElem?_eq_getElem hj] at this
      exact Option.some.inj this
    rcases Nat.lt_or_ge k m with hlt | hge
    · refine (List.findIdx_eq (by omega)).mpr ⟨?_, fun j hj => ?_⟩
      · rw [hget k (by omega), decide_eq_true_eq]
        exact hat hlt
      · rw [hget j (by omega), decide_eq_false_iff_not]
        exact hbefore j hj
    · obtain rfl : k = (entsOf s e).length := by omega
      refine List.findIdx_eq_length.mpr fun de hde => ?_
      obtain ⟨j, hj, rfl⟩ := List.mem_iff_getElem.mp hde
      rw [hget j hj, decide_eq_false_iff_not]
      exact hbefore j hj
  unfold emptySlot
  rw [wp_bind, wp_view, h.size, hm, wp_bind]
  refine wp_forUp (I := fun a u => u = s ∧ ∃ j ≤ m, a = DESIZE * j ∧
      ∀ x < j, (direntAt s.disk (s.itable e).d x).inum ≠ 0)
    (by decide) ⟨rfl, 0, Nat.zero_le _, rfl, fun x hx => absurd hx (Nat.not_lt_zero x)⟩ ?_ ?_
  · rintro a u ha ⟨rfl, j, hj, rfl, hbefore⟩
    have hjm : j < m := Nat.lt_of_mul_lt_mul_left ha
    rw [wp_bind]
    refine wp_mono (wp_readDirent_at h.entries (by omega) _) (fun de v ⟨hde, hv⟩ => ?_) fun _ _ hf => hf.elim
    subst hde hv
    rw [wp_ite]
    split
    · rename_i hz
      exact ⟨by rw [hidx j hj hbefore fun _ => hz]; rfl, rfl⟩
    · rename_i hz
      refine ⟨by rw [hD] at hsmall ha ⊢; omega, rfl, j + 1, hjm, by rw [Nat.mul_succ], fun x hx => ?_⟩
      rcases Nat.lt_succ_iff_lt_or_eq.mp hx with hlt | rfl
      · exact hbefore x hlt
      · exact hz
  · rintro a u ha ⟨rfl, j, hj, rfl, hbefore⟩
    obtain rfl : j = m := Nat.le_antisymm hj (Nat.le_of_mul_le_mul_left ha (by decide))
    refine ⟨?_, rfl⟩
    rw [hidx j (Nat.le_refl _) hbefore fun hlt => absurd hlt (Nat.lt_irrefl _), hD, Option.getD_none]
    omega

def Overrun (e : Stop) : Prop := LogPanic e ∨ TableFull e

theorem Dir.wp_dirlink (ho : sb.Ordered) (h : Dir sb s e) (name : List UInt8) (inum : Nat) :
    wp (dirlink sb e name inum) (fun r t => Dir sb t e ∧ (t.itable e).inum = (s.itable e).inum ∧
      ((∃ de ∈ entsOf s e, de.holds name = true) ∧ r = -1 ∧ entsOf t e = entsOf s e ∨
        (∀ de ∈ entsOf s e, de.holds name = false) ∧ (r = -1 ∧ entsOf t e = entsOf s e ∧ CannotGrow sb t e ∨
          r = 0 ∧ entsOf t e = put (entsOf s e) (firstFree (entsOf s e)) (Dirent.make name inum))))
      (fun e _ => Overrun e) s := by
  unfold dirlink
  rw [wp_bind]
  refine wp_dirlookup_at h.entries (fun k hk hname _ => ?_) fun hall => ?_
  · have hget : (entsOf s e)[k]? = some (direntAt s.disk (s.itable e).d k) := by rw [entsOf_getElem?, if_pos hk]
    refine wp_mono (wp_iget_iput sb _) (fun ip u hput => ?_) fun _ _ he => .inr he
    simp only
    rw [wp_bind]
    refine wp_mono hput (fun _ v hq => ?_) fun _ _ hf => hf.elim
    obtain ⟨hdir, hents⟩ := h.quiet hq
    exact ⟨hdir, by rw [hq.entry e h.locked.ref], .inl ⟨⟨_, List.mem_of_getElem? hget, hname⟩, rfl, hents⟩⟩
  · have habsent := (holds_false_iff rfl).mp hall
    simp only
    rw [wp_bind]
    refine wp_mono h.wp_emptySlot (fun off t ⟨hoff, ht⟩ => ?_) fun _ _ hf => hf.elim
    subst hoff ht
    rw [wp_bind]
    refine wp_mono (h.wp_write ho (firstFree_le _) _) (fun r t ⟨hdir, hinum, hr⟩ => ?_) fun _ _ he => .inl he
    rw [wp_ite]
    rcases hr with ⟨hr, hents⟩ | ⟨hr, hents, hgrow⟩
    · rw [if_neg (not_not.mpr hr), wp_bind]
      unfold onGhost
      rw [wp_change, wp_pure]
      have hq : ∀ g, Quiet t { t with ghost := g } := fun _ => ⟨rfl, fun _ => rfl, fun _ _ => rfl⟩
      obtain ⟨hdir', hents'⟩ := hdir.quiet (hq _)
      exact ⟨hdir', hinum, .inr ⟨habsent, .inr ⟨rfl, hents'.trans hents⟩⟩⟩
    · rw [if_pos hr]
      exact ⟨hdir, hinum, .inr ⟨habsent, .inl ⟨rfl, hents, hgrow⟩⟩⟩

theorem Dir.wp_isdirempty (h : Dir sb s e) : wp (isdirempty sb e) (fun _ t => t = s) (fun _ _ => False) s := by
  have hD : DESIZE = 16 := rfl
  have hsmall := h.entries.small
  unfold isdirempty
  rw [wp_bind, wp_view, h.size, wp_bind]
  refine wp_forUp (I := fun a u => u = s ∧ ∃ j, a = DESIZE * j) (by decide) ⟨rfl, 2, rfl⟩ ?_ ?_
  · rintro a u ha ⟨rfl, j, rfl⟩
    have hj : j < (entsOf u e).length := Nat.lt_of_mul_lt_mul_left ha
    refine wp_then (wp_readDirent_at h.entries hj _) fun de v ⟨_, hv⟩ => ?_
    subst hv
    rw [wp_ite]
    split
    · rfl
    · exact ⟨by rw [hD] at hsmall ⊢; omega, rfl, j + 1, by rw [Nat.mul_succ]⟩
  · rintro a u _ ⟨rfl, -⟩
    rfl

/-! ### Runs -/

/-- What can have become of directory `i`: under its lock, entries are added by `dirlink` and cleared by `sys_unlink`;
    in between everything else may change. -/
inductive DirReach (sb : Superblock) (i : Nat) : Sys → Prop
  | fresh {s : Sys} : (inodeOf sb s i).size = 0 → DirReach sb i s
  | link {s t : Sys} {e : Fin NINODE} {name : List UInt8} {inum : Nat} {r : Int} : DirReach sb i s →
      Volume sb s → Locked sb s e → (s.itable e).inum = i → (s.itable e).d.type = T_DIR →
      exec (dirlink sb e name inum) s = .ok (r, t) → DirReach sb i t
  | clear {s t : Sys} {e : Fin NINODE} {k : Nat} {r : Int} : DirReach sb i s →
      Volume sb s → Locked sb s e → (s.itable e).inum = i → (s.itable e).d.type = T_DIR → k < (entsOf s e).length →
      exec (writei sb e (.kernel Dirent.zero.bytes) (DESIZE * k) DESIZE) s = .ok (r, t) → DirReach sb i t
  | other {s t : Sys} : DirReach sb i s →
      content t.disk (inodeOf sb t i) = content s.disk (inodeOf sb s i) → DirReach sb i t

def IsMap (sb : Superblock) (s : Sys) (i : Nat) : Prop :=
  DESIZE ∣ (inodeOf sb s i).size.toNat ∧ Distinct (dirents s.disk (inodeOf sb s i))

theorem Dir.isMap (h : Dir sb s e) (hd : Distinct (entsOf s e)) : IsMap sb s (s.itable e).inum := by
  unfold IsMap
  rw [h.volume.inodeOf_self h.locked]
  exact ⟨h.whole, hd⟩

theorem IsMap.dir {i : Nat} (h : IsMap sb s i) (hvol : Volume sb s) (he : Locked sb s e) (hi : (s.itable e).inum = i)
    (htype : (s.itable e).d.type = T_DIR) : Dir sb s e ∧ Distinct (entsOf s e) := by
  unfold IsMap at h
  rw [← hi, hvol.inodeOf_self he] at h
  exact ⟨⟨hvol, he, htype, h.1⟩, h.2⟩

theorem Distinct.link {ents : List Dirent} (h : Distinct ents) {name : List UInt8} (inum : Nat)
    (habsent : ∀ de ∈ ents, de.holds name = false) : Distinct (Fs.put ents (firstFree ents) (Dirent.make name inum)) := by
  refine h.put (firstFree_le ents) fun _ y hy hne => ?_
  have hholds := habsent y hy
  unfold Dirent.holds at hholds
  rw [decide_eq_true hne, Bool.true_and] at hholds
  rw [same_make]
  exact hholds

theorem DirReach.isMap (ho : sb.Ordered) {i : Nat} (h : DirReach sb i s) : IsMap sb s i := by
  induction h with
  | @fresh s h0 =>
    have hnone : dirents s.disk (inodeOf sb s i) = [] := by
      unfold dirents
      rw [h0]
      rfl
    refine ⟨by rw [h0]; exact Nat.dvd_zero _, ?_⟩
    rw [hnone]
    intro a b x y ha
    cases ha
  | link _ hvol he hi htype hrun ih =>
    obtain ⟨hdir, hdistinct⟩ := ih.dir hvol he hi htype
    obtain ⟨hdir', hinum, hr⟩ := wp_exec (wp_mono (hdir.wp_dirlink ho _ _) (fun _ _ h => h) fun _ _ _ => trivial) hrun
    rw [← hi, ← hinum]
    refine hdir'.isMap ?_
    rcases hr with ⟨-, -, hents⟩ | ⟨habsent, ⟨-, hents, -⟩ | ⟨-, hents⟩⟩
    · rwa [hents]
    · rwa [hents]
    · rw [hents]
      exact hdistinct.link _ habsent
  | clear _ hvol he hi htype hk hrun ih =>
    obtain ⟨hdir, hdistinct⟩ := ih.dir hvol he hi htype
    obtain ⟨hdir', hinum, hr⟩ := wp_exec (wp_mono (hdir.wp_write ho (Nat.le_of_lt hk) _) (fun _ _ h => h)
      fun _ _ _ => trivial) hrun
    rw [← hi, ← hinum]
    refine hdir'.isMap ?_
    rcases hr with ⟨-, hents⟩ | ⟨-, hents, -⟩
    · rw [hents]
      exact hdistinct.put (Nat.le_of_lt hk) fun hne => absurd rfl hne
    · rwa [hents]
  | other _ hsame ih =>
    obtain ⟨hsize, hents⟩ := dirents_congr hsame
    unfold IsMap
    rw [hsize, hents]
    exact ih

end


namespace Crowded

def disk : Disk := fun b => if b = 36 then Bytes.write Bytes.zero 0 5 fun i => if i < 4 then 255 else 31 else Bytes.zero

def sys : Sys where
  disk := disk
  lh := []
  outstanding := 1
  itable e := if e.val = 0 then ⟨1, 1, true, true, ⟨T_DIR, 0, 0, 1, 0, fun _ => 0⟩⟩ else ⟨e.val + 8, 1, false, false, Dinode.zero⟩
  ftable _ := ⟨.none, 0, false, false, 0, 0, 0, 0⟩
  proc _ := ⟨fun _ => none, none⟩
  pipe _ := none
  ghost := ⟨[], true, [], fun _ => 0, fun _ _ => 0⟩

theorem ordered : Small.sb.Ordered where
  inodes i hi := by
    have : i < 60 := hi
    change i / (1024 / 64) + 32 < 36
    omega
  bitmap b hb := by
    have : b < 80 := hb
    change b / (1024 * 8) + 36 < 37
    omega
  root := by decide
  inum := by decide
  blocks := by decide

theorem evaluated : (∀ i < 60, (∀ j < 13, (inodeOf Small.sb sys i).addr j = 0) ∧ (inodeOf Small.sb sys i).size = 0) ∧
    (∀ e e' : Fin NINODE, (sys.itable e).inum = (sys.itable e').inum → e = e') ∧
    ∀ b < 37, inUse Small.sb disk b = true := by
  decide +kernel

theorem slot_eq {i : Nat} (hi : i < Small.sb.ninodes) (j : Nat) : slot disk (inodeOf Small.sb sys i) j = 0 := by
  have haddr' : ∀ j, (inodeOf Small.sb sys i).addr j = 0 := fun j => by
    by_cases hj : j < 13
    · exact (evaluated.1 i hi).1 j hj
    · exact dif_neg hj
  unfold slot
  rw [haddr', haddr']
  simp

theorem size_eq {i : Nat} (hi : i < Small.sb.ninodes) : (inodeOf Small.sb sys i).size = 0 :=
  (evaluated.1 i hi).2

theorem volume : Volume Small.sb sys where
  uniq e e' _ _ := evaluated.2.1 e e'
  front := evaluated.2.2
  used i hi j hj := absurd (slot_eq hi j) hj
  inj i hi _ _ j _ hj := absurd (slot_eq hi j) hj
  full i hi bn hbn := by
    rw [size_eq hi] at hbn
    exact absurd hbn (Nat.not_lt_zero _)

theorem locked : Locked Small.sb sys 0 := ⟨by decide, rfl, rfl, by decide⟩

theorem reach : DirReach Small.sb 1 sys := .fresh (size_eq (by decide))

end Crowded

end Xv6.Fs
