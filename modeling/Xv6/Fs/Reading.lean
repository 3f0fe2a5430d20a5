import Mathlib.Data.List.GetD
import Mathlib.Data.List.TakeWhile
import Xv6.Fs.Dir

/-! Reading files and directories changes nothing but the inode table, where a file has its blocks. -/

namespace Xv6.Fs
open Lib

section Read
variable {sb : Superblock} {s : Sys} {e : Fin NINODE}

/-- A block that the file has. -/
theorem wp_bmap_old {bn : Nat} (hb : fileBlock s.disk (s.itable e).d bn ≠ 0) :
    wp (bmap sb e bn) (fun r t => r = fileBlock s.disk (s.itable e).d bn ∧ t = s) (fun _ _ => False) s := by
  unfold fileBlock at *
  unfold bmap addrOrAlloc bread
  by_cases hbn : bn < NDIRECT
  · rw [if_pos hbn] at hb ⊢
    rw [if_pos hbn, wp_bind, wp_view, if_pos hb]
    exact ⟨rfl, rfl⟩
  · rw [if_neg hbn] at hb ⊢
    by_cases hin : bn - NDIRECT < NINDIRECT ∧ (s.itable e).d.addr NDIRECT ≠ 0
    · rw [if_pos hin] at hb ⊢
      rw [if_neg hbn, if_pos hin.1, wp_bind, wp_bind, wp_view, if_pos hin.2, wp_pure, if_neg hin.2, wp_bind, wp_view, if_pos]
      · exact ⟨rfl, rfl⟩
      · intro hz
        rw [hz] at hb
        exact hb rfl
    · rw [if_neg hin] at hb
      exact absurd rfl hb

def Covered (s : Sys) (e : Fin NINODE) (off n : Nat) : Prop :=
  ∀ x, off ≤ x → x < off + n → fileBlock s.disk (s.itable e).d (x / BSIZE) ≠ 0

def slice (s : Sys) (e : Fin NINODE) (off n : Nat) : List UInt8 :=
  (List.range n).map fun i => fileByte s.disk (s.itable e).d (off + i)

theorem slice_add (off a b : Nat) : slice s e off (a + b) = slice s e off a ++ slice s e (off + a) b := by
  unfold slice
  rw [List.range_add, List.map_append, List.map_map]
  simp only [Function.comp_def, Nat.add_assoc]

theorem wp_readiLoop {n rounds tot off : Nat} {acc : List UInt8} (hrounds : n ≤ tot + rounds) (htot : tot ≤ n)
    (hc : Covered s e off (n - tot)) :
    wp (readiLoop sb e Sink.kernel n rounds tot off acc)
      (fun r t => r = ((n : Int), acc ++ slice s e off (n - tot)) ∧ t = s) (fun _ _ => False) s := by
  induction rounds generalizing tot off acc with
  | zero =>
    obtain rfl : tot = n := by omega
    rw [Nat.sub_self]
    exact ⟨by simp [slice], rfl⟩
  | succ rounds ih =>
    rw [readiLoop]
    by_cases hlt : tot < n
    · have hmod := Nat.mod_lt off (show 0 < BSIZE by decide)
      have hb := hc off (Nat.le_refl _) (by omega)
      rw [if_pos hlt]
      refine wp_then (wp_bmap_old hb) fun addr t ⟨haddr, ht⟩ => ?_
      subst haddr ht
      rw [if_neg hb, wp_bind]
      unfold bread
      rw [wp_view]
      obtain ⟨m, hm⟩ : ∃ m, m = min (n - tot) (BSIZE - off % BSIZE) := ⟨_, rfl⟩
      simp only [Sink.kernel, if_true]
      rw [← hm]
      have hblock : (List.range m).map (fun i => (t.disk (fileBlock t.disk (t.itable e).d (off / BSIZE))).get (off % BSIZE + i)) =
          slice t e off m := by
        refine List.map_congr_left fun i hi => ?_
        rw [List.mem_range] at hi
        obtain ⟨hdiv, hmodi⟩ := same_block (show off % BSIZE + i < BSIZE by omega)
        unfold fileByte
        rw [hdiv, hmodi]
      rw [hblock]
      refine wp_post (ih (by omega) (by omega) fun x hx hx' => hc x (by omega) (by omega))
        fun r t ⟨hr, ht⟩ => ⟨?_, ht⟩
      rw [hr, List.append_assoc, ← slice_add, show m + (n - (tot + m)) = n - tot by omega]
    · obtain rfl : tot = n := by omega
      rw [if_neg hlt, Nat.sub_self]
      exact ⟨by simp [slice], rfl⟩

def readLen (size off n : Nat) : Nat := min n (size - off)

theorem wp_readi {off n : Nat} (hn : off + n < 2 ^ 32)
    (hc : Covered s e off (readLen (s.itable e).d.size.toNat off n)) :
    wp (readi sb e Sink.kernel off n)
      (fun r t => r = ((readLen (s.itable e).d.size.toNat off n : Int),
        slice s e off (readLen (s.itable e).d.size.toNat off n)) ∧ t = s) (fun _ _ => False) s := by
  unfold readi
  rw [wp_bind, wp_view]
  generalize hsize : (s.itable e).d.size.toNat = size at hc ⊢
  have hlt : size < 2 ^ 32 := hsize ▸ UInt32.toNat_lt _
  simp only
  by_cases hoff : off > size
  · rw [if_pos (.inl hoff), show readLen size off n = 0 by unfold readLen; omega]
    exact ⟨rfl, rfl⟩
  · rw [if_neg (by rw [Nat.mod_eq_of_lt hn]; omega)]
    have hlen : (if off + n > size then size - off else n) = readLen size off n := by
      unfold readLen
      split <;> omega
    rw [hlen]
    refine wp_post (wp_readiLoop (by omega) (Nat.zero_le _) (by rwa [Nat.sub_zero])) fun r t hr => ?_
    rwa [List.nil_append, Nat.sub_zero] at hr

end Read

theorem length_bytes (de : Dirent) : de.bytes.length = DESIZE := by
  unfold Dirent.bytes
  rw [List.length_cons, List.length_cons, List.length_map, List.length_finRange]
  rfl

theorem ofBytes_bytes (de : Dirent) : Dirent.ofBytes de.bytes = de := by
  obtain ⟨inum, name⟩ := de
  unfold Dirent.ofBytes Dirent.bytes
  rw [Dirent.mk.injEq]
  constructor
  · have hlt := inum.toNat_lt
    simp only [List.getD_cons_zero, List.getD_cons_succ, UInt8.toNat_ofNat']
    rw [← UInt16.toNat_inj, UInt16.toNat_ofNat']
    omega
  · funext i
    rw [Nat.add_comm, List.getD_cons_succ, List.getD_cons_succ, List.getD_eq_getElem _ _ (by simp)]
    simp

section Names
variable {l l' : List UInt8}

theorem strncmpEq_refl (p : Nat → UInt8) (n i : Nat) : strncmpEq p p n i = true := by
  induction n generalizing i with
  | zero => rfl
  | succ n ih =>
    rw [strncmpEq]
    split
    · exact ih _
    · exact decide_eq_true rfl

theorem charAt_ne (h : (0 : UInt8) ∉ l) {i : Nat} (hi : i < l.length) : charAt l i ≠ 0 := by
  unfold charAt
  rw [List.getD_eq_getElem _ _ hi]
  exact fun h0 => h (h0 ▸ List.getElem_mem hi)

theorem charAt_ge {i : Nat} (hi : l.length ≤ i) : charAt l i = 0 := List.getD_eq_default _ _ hi

theorem drop_eq_of_strncmpEq (h : (0 : UInt8) ∉ l) (h' : (0 : UInt8) ∉ l') {n i : Nat} (hl : l.length ≤ i + n)
    (hl' : l'.length ≤ i + n) (heq : strncmpEq (charAt l) (charAt l') n i = true) : l.drop i = l'.drop i := by
  induction n generalizing i with
  | zero => rw [List.drop_eq_nil_of_le (by omega), List.drop_eq_nil_of_le (by omega)]
  | succ n ih =>
    rw [strncmpEq] at heq
    split at heq
    · rename_i hne
      have hi : i < l.length := by
        by_contra hge
        exact hne.1 (charAt_ge (by omega))
      have hi' : i < l'.length := by
        by_contra hge
        exact hne.1 (hne.2.trans (charAt_ge (by omega)))
      have hrest := ih (i := i + 1) (by omega) (by omega) heq
      have hhead := hne.2
      unfold charAt at hhead
      rw [List.getD_eq_getElem _ _ hi, List.getD_eq_getElem _ _ hi'] at hhead
      rw [List.drop_eq_getElem_cons hi, List.drop_eq_getElem_cons hi', hrest, hhead]
    · rename_i hne
      have hsame := of_decide_eq_true heq
      have hz : charAt l i = 0 := by
        by_contra h0
        exact hne ⟨h0, hsame⟩
      have hi : l.length ≤ i := by
        by_contra hlt
        exact charAt_ne h (by omega) hz
      have hi' : l'.length ≤ i := by
        by_contra hlt
        exact charAt_ne h' (by omega) (hsame.symm.trans hz)
      rw [List.drop_eq_nil_of_le hi, List.drop_eq_nil_of_le hi']

theorem named_make (h : (0 : UInt8) ∉ l) (h' : (0 : UInt8) ∉ l') (hl : l.length ≤ DIRSIZ) (hl' : l'.length ≤ DIRSIZ)
    (inum : Nat) : (Dirent.make l' inum).named l = decide (l = l') := by
  have htake : l'.takeWhile (· ≠ 0) = l' := List.takeWhile_eq_self_iff.mpr fun x hx => by
    rw [decide_eq_true_eq]
    rintro rfl
    exact h' hx
  have hchar : (Dirent.make l' inum).char = charAt l' := by
    funext i
    unfold Dirent.char Dirent.make
    rw [htake]
    split
    · rfl
    · exact (charAt_ge (by omega)).symm
  unfold Dirent.named
  rw [hchar, Bool.eq_iff_iff, decide_eq_true_eq]
  constructor
  · intro heq
    have := drop_eq_of_strncmpEq h h' (n := DIRSIZ) (i := 0) (by omega) (by omega) heq
    rwa [List.drop_zero, List.drop_zero] at this
  · rintro rfl
    exact strncmpEq_refl _ _ _

end Names

section Lookup
variable {sb : Superblock} {s : Sys} {e : Fin NINODE}

structure Lists (s : Sys) (e : Fin NINODE) (ents : List Dirent) : Prop where
  type : (s.itable e).d.type = T_DIR
  size : DESIZE * ents.length ≤ (s.itable e).d.size.toNat
  small : (s.itable e).d.size.toNat < 2 ^ 31
  covered : Covered s e 0 (DESIZE * ents.length)
  entry : ∀ k, (hk : k < ents.length) → slice s e (DESIZE * k) DESIZE = (ents.get ⟨k, hk⟩).bytes

theorem wp_readDirent {ents : List Dirent} (h : Lists s e ents) {k : Nat} (hk : k < ents.length) {msg : String} :
    wp (readDirent sb e (DESIZE * k) msg) (fun de t => de = ents.get ⟨k, hk⟩ ∧ t = s) (fun _ _ => False) s := by
  have hsize := h.size
  have hsmall := h.small
  have hle : DESIZE * k + DESIZE ≤ DESIZE * ents.length := by
    rw [← Nat.mul_succ]
    exact Nat.mul_le_mul_left _ hk
  have hlen : readLen (s.itable e).d.size.toNat (DESIZE * k) DESIZE = DESIZE := by
    unfold readLen
    omega
  have hD : DESIZE = 16 := rfl
  unfold readDirent
  refine wp_then (wp_readi (by omega) (by rw [hlen]; exact fun x _ hx' => h.covered x (Nat.zero_le _) (by omega)))
    fun r t ⟨hr, ht⟩ => ?_
  subst hr ht
  rw [hlen]
  simp only [wp_bind, wp_stopIf, wp_pure, ne_eq, not_true_eq_false, false_implies, not_false_eq_true, forall_const, true_and,
    and_true]
  rw [h.entry k hk, ofBytes_bytes]

theorem wp_dirlookup {ents : List Dirent} (h : Lists s e ents) {name : List UInt8} {k : Nat} (hk : k < ents.length)
    (hbefore : ∀ j, (hj : j < k) → (ents.get ⟨j, hj.trans hk⟩).named name = false)
    (hinum : (ents.get ⟨k, hk⟩).inum ≠ 0) (hnamed : (ents.get ⟨k, hk⟩).named name = true)
    {Q : Option (Fin NINODE × Nat) → Sys → Prop}
    (hQ : wp (iget (ents.get ⟨k, hk⟩).inum.toNat) (fun ip t => Q (some (ip, DESIZE * k)) t) (fun _ _ => False) s) :
    wp (dirlookup sb e name) Q (fun _ _ => False) s := by
  have hsize := h.size
  have hsmall := h.small
  have hD : DESIZE = 16 := rfl
  unfold dirlookup
  rw [wp_bind, wp_view, wp_bind, wp_stopIf]
  refine ⟨fun hne => absurd h.type hne, fun _ => ?_⟩
  refine wp_forUp (I := fun a t => t = s ∧ ∃ j ≤ k, a = DESIZE * j) (by decide) ⟨rfl, 0, Nat.zero_le _, rfl⟩ ?_ ?_
  · rintro a t ha ⟨rfl, j, hj, rfl⟩
    refine wp_then (wp_readDirent h (show j < ents.length by omega)) fun de t' ⟨hde, ht⟩ => ?_
    subst hde ht
    by_cases hjk : j = k
    · subst hjk
      rw [if_neg hinum, if_pos hnamed]
      exact wp_then hQ fun ip t hq => hq
    · have hnext : DESIZE * j + DESIZE < 2 ^ 32 ∧ t' = t' ∧ ∃ j' ≤ k, DESIZE * j + DESIZE = DESIZE * j' :=
        ⟨by omega, rfl, j + 1, by omega, by rw [Nat.mul_succ]⟩
      split
      · exact hnext
      · rw [if_neg (by rw [hbefore j (by omega)]; decide)]
        exact hnext
  · rintro a t ha ⟨rfl, j, hj, rfl⟩
    have : DESIZE * j + DESIZE ≤ DESIZE * ents.length := by
      rw [← Nat.mul_succ]
      exact Nat.mul_le_mul_left _ (by omega)
    omega

theorem wp_iget_new {inum : Nat} (hnone : ∀ e, 0 < (s.itable e).ref → (s.itable e).inum ≠ inum)
    (hfree : ∃ e, (s.itable e).ref = 0) :
    wp (iget inum) (fun e t => (s.itable e).ref = 0 ∧
      t = s.setInode e { s.itable e with inum, ref := 1, valid := false }) (fun _ _ => False) s := by
  have h1 : (List.finRange NINODE).find? (fun e => 0 < (s.itable e).ref && (s.itable e).inum == inum) = none := by
    rw [List.find?_eq_none]
    intro e _ he
    rw [Bool.and_eq_true, decide_eq_true_eq, beq_iff_eq] at he
    exact hnone e he.1 he.2
  obtain ⟨e, he⟩ := hfree
  have h2 : ((List.finRange NINODE).find? fun e => (s.itable e).ref == 0).isSome :=
    List.find?_isSome.mpr ⟨e, List.mem_finRange e, by rw [beq_iff_eq]; exact he⟩
  obtain ⟨e', he'⟩ := Option.isSome_iff_exists.mp h2
  have href := List.find?_some he'
  rw [beq_iff_eq] at href
  unfold iget
  rw [wp_bind, wp_view, h1]
  simp only
  rw [wp_bind, wp_view, he']
  exact ⟨href, rfl⟩

theorem wp_ilock_read (href : (s.itable e).ref = 1) (hlocked : (s.itable e).locked = false)
    (hvalid : (s.itable e).valid = false) (htype : (dinode sb s.disk (s.itable e).inum).type ≠ 0) :
    wp (ilock sb e) (fun _ t => t.disk = s.disk ∧ t.itable e = ⟨(s.itable e).inum, 1, true, true,
      dinode sb s.disk (s.itable e).inum⟩ ∧ ∀ e' ≠ e, t.itable e' = s.itable e') (fun _ _ => False) s := by
  unfold ilock onInode
  simp only [wp_bind, wp_view, wp_stopIf, wp_change, wp_doIf, setInode_self, setInode_disk, href, hlocked, hvalid]
  refine ⟨fun h => absurd h (by decide), fun _ => ⟨fun h => absurd h (by decide), fun _ => ⟨fun _ => ⟨htype, fun _ => ?_⟩,
    fun h => absurd trivial h⟩⟩⟩
  refine ⟨trivial, ?_, fun e' he' => ?_⟩
  · rw [← href]
    rfl
  · rw [setInode_itable, if_neg he', setInode_itable, if_neg he']

theorem wp_iunlockput_linked (href : (s.itable e).ref = 1) (hlocked : (s.itable e).locked = true)
    (hnlink : (s.itable e).d.nlink ≠ 0) :
    wp (iunlockput sb e) (fun _ t => t.disk = s.disk ∧ ∀ e' ≠ e, t.itable e' = s.itable e') (fun _ _ => False) s := by
  unfold iunlockput iunlock iput onInode onGhost
  simp only [wp_bind, wp_view, wp_stopIf, wp_change, wp_doIf, setInode_self]
  refine ⟨fun h => ?_, fun _ => ⟨fun h => absurd h.2.2 hnlink, fun _ => ⟨rfl, fun e' he' => ?_⟩⟩⟩
  · rw [hlocked, href] at h
    exact absurd h (by decide)
  · rw [setInode_itable, if_neg he', setInode_itable, if_neg he']

theorem elems_root {name : List UInt8} (hne : name ≠ []) (hslash : slash ∉ name) (hlen : name.length ≤ DIRSIZ) :
    elems (slash :: name) = [name] := by
  have hall : ∀ x ∈ name, decide (x ≠ slash) = true := fun x hx => by
    rw [decide_eq_true_eq]
    rintro rfl
    exact hslash hx
  have hstart : (slash :: name).dropWhile (· = slash) = name := by
    rw [List.dropWhile_cons_of_pos (by decide)]
    cases name with
    | nil => rfl
    | cons c rest =>
      refine List.dropWhile_cons_of_neg ?_
      rw [decide_eq_true_eq]
      rintro rfl
      exact hslash List.mem_cons_self
  have hskip : skipelem (slash :: name) = some (name, []) := by
    unfold skipelem
    simp only [hstart]
    rw [if_neg hne, List.takeWhile_eq_self_iff.mpr hall, List.take_of_length_le hlen, List.dropWhile_eq_nil_iff.mpr hall]
    rfl
  have hnil : ∀ n, pathElems n [] = [] := fun n => by
    cases n <;> rfl
  unfold elems
  rw [List.length_cons, pathElems, hskip]
  simp only [hnil]

def EmptyTable (s : Sys) : Prop := ∀ e, (s.itable e).ref = 0 ∧ (s.itable e).locked = false

theorem wp_namei_root (p : Fin NPROC) {ents : List Dirent} {name : List UInt8} {k : Nat} (htab : EmptyTable s)
    (hne : name ≠ []) (hslash : slash ∉ name) (hlen : name.length ≤ DIRSIZ)
    (hlists : ∀ (t : Sys) e, t.disk = s.disk → (t.itable e).d = dinode sb s.disk ROOTINO → Lists t e ents)
    (hroot : (dinode sb s.disk ROOTINO).type = T_DIR) (hnlink : (dinode sb s.disk ROOTINO).nlink ≠ 0)
    (hk : k < ents.length) (hbefore : ∀ j, (hj : j < k) → (ents.get ⟨j, hj.trans hk⟩).named name = false)
    (hinum : (ents.get ⟨k, hk⟩).inum ≠ 0) (hother : (ents.get ⟨k, hk⟩).inum.toNat ≠ ROOTINO)
    (hnamed : (ents.get ⟨k, hk⟩).named name = true) :
    wp (namei sb p (slash :: name)) (fun r t => ∃ e, r = some e ∧ t.disk = s.disk ∧
      (t.itable e).inum = (ents.get ⟨k, hk⟩).inum.toNat ∧ (t.itable e).ref = 1 ∧ (t.itable e).locked = false ∧
      (t.itable e).valid = false) (fun _ _ => False) s := by
  have hsomewhere : ∀ e : Fin NINODE, ∃ e' : Fin NINODE, e' ≠ e := by
    intro e
    by_cases h : e = ⟨0, by decide⟩
    · exact ⟨⟨1, by decide⟩, by rw [h]; decide⟩
    · exact ⟨⟨0, by decide⟩, fun h' => h h'.symm⟩
  unfold namei namexStart
  rw [elems_root hne hslash hlen, wp_bind, if_pos (show (slash :: name).head? = some slash from rfl)]
  refine wp_post (wp_iget_new (fun e he => absurd he (by rw [(htab e).1]; decide)) ⟨0, (htab 0).1⟩)
    fun root s₁ ⟨_, hs₁⟩ => ?_
  have hx₁ : s₁.itable root = { s.itable root with inum := ROOTINO, ref := 1, valid := false } := by
    rw [hs₁, setInode_self]
  have ho₁ : ∀ e ≠ root, s₁.itable e = s.itable e := fun e he => by rw [hs₁, setInode_itable, if_neg he]
  have hd₁ : s₁.disk = s.disk := by rw [hs₁]; rfl
  rw [namexLoop, wp_bind]
  have hinode : dinode sb s₁.disk (s₁.itable root).inum = dinode sb s.disk ROOTINO := by rw [hx₁, hd₁]
  refine wp_post (wp_ilock_read (by rw [hx₁]) (by rw [hx₁]; exact (htab root).2) (by rw [hx₁])
    (by rw [hinode, hroot]; decide)) fun _ s₂ ⟨hd₂, hx₂, ho₂⟩ => ?_
  rw [hinode] at hx₂
  rw [wp_bind, wp_view, if_neg (by rw [hx₂]; exact not_not.mpr hroot), wp_bind]
  -- the inode of the entry gets another place in the table
  refine wp_dirlookup (hlists s₂ root (hd₂.trans hd₁) (by rw [hx₂])) hk hbefore hinum hnamed ?_
  refine wp_post (wp_iget_new (fun e he => ?_) ?_) fun e s₃ ⟨hfree, hs₃⟩ => ?_
  · by_cases her : e = root
    · subst her
      rw [hx₂, hx₁]
      exact hother.symm
    · rw [ho₂ e her, ho₁ e her, (htab e).1] at he
      exact absurd he (by decide)
  · obtain ⟨e, he⟩ := hsomewhere root
    exact ⟨e, by rw [ho₂ e he, ho₁ e he, (htab e).1]⟩
  · have her : e ≠ root := by
      rintro rfl
      rw [hx₂] at hfree
      exact absurd (show (1 : Int) = 0 from hfree) (by decide)
    have hx₃ : s₃.itable root = s₂.itable root := by rw [hs₃, setInode_itable, if_neg her.symm]
    simp only
    refine wp_then (wp_iunlockput_linked (by rw [hx₃, hx₂]) (by rw [hx₃, hx₂]) (by rw [hx₃, hx₂]; exact hnlink))
      fun _ s₄ ⟨hd₄, ho₄⟩ => ?_
    have hx₄ : s₄.itable e = { s₂.itable e with inum := (ents.get ⟨k, hk⟩).inum.toNat, ref := 1, valid := false } := by
      rw [ho₄ e her, hs₃, setInode_self]
    refine ⟨e, rfl, ?_, by rw [hx₄], by rw [hx₄], ?_, by rw [hx₄]⟩
    · rw [hd₄, hs₃]
      exact hd₂.trans hd₁
    · rw [hx₄, ho₂ e her, ho₁ e her]
      exact (htab e).2

end Lookup

end Xv6.Fs
