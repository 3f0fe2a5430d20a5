import Xv6.Fs.Bytes

/-! Path resolution, name by name, with one reference held, or two while `namex` goes from one inode to the next. -/

namespace Xv6.Fs
open Lib

/-- The non-empty pieces of the path between slashes, each cut to `DIRSIZ` bytes. -/
def pieces (path : Path) : List (List UInt8) := ((path.splitOn slash).filter (· ≠ [])).map (·.take DIRSIZ)

theorem pieces_slash (path : Path) : pieces (slash :: path) = pieces path := by
  have hsplit := List.splitOnP_append_cons_of_forall_mem (p := (· == slash)) (fun _ hx => absurd hx List.not_mem_nil) slash
    (beq_self_eq_true _) path
  unfold pieces List.splitOn
  rw [List.nil_append] at hsplit
  rw [hsplit]
  rfl

theorem pieces_dropWhile (path : Path) : pieces (path.dropWhile (· = slash)) = pieces path := by
  induction path with
  | nil => rfl
  | cons c path ih =>
    by_cases hc : c = slash
    · rw [List.dropWhile_cons_of_pos (by simpa using hc), ih, hc, pieces_slash]
    · rw [List.dropWhile_cons_of_neg (by simpa using hc)]

theorem pieces_name {path : Path} (hne : path ≠ []) (hhead : ∀ c, path.head? = some c → c ≠ slash) :
    pieces path = (path.takeWhile (· ≠ slash)).take DIRSIZ :: pieces (path.dropWhile (· ≠ slash)) := by
  have hclean : ∀ c ∈ path.takeWhile (· ≠ slash), (c == slash) = false := fun c hc => by
    have := List.mem_takeWhile_imp hc
    simpa using this
  have hname : path.takeWhile (· ≠ slash) ≠ [] := by
    cases path with
    | nil => exact absurd rfl hne
    | cons c path =>
      rw [List.takeWhile_cons_of_pos (by simpa using hhead c rfl)]
      exact List.cons_ne_nil _ _
  have hparts := List.takeWhile_append_dropWhile (p := fun c => decide (c ≠ slash)) (l := path)
  cases hrest : path.dropWhile (· ≠ slash) with
  | nil =>
    rw [hrest, List.append_nil] at hparts
    have hsplit := List.splitOnP_eq_singleton (p := (· == slash)) hclean
    rw [hparts] at hsplit hname ⊢
    unfold pieces List.splitOn
    rw [hsplit]
    simp [hname, List.splitOnP_nil]
  | cons c rest =>
    have hc : c = slash := by
      have := List.head?_dropWhile_not (fun c => decide (c ≠ slash)) path
      rw [hrest] at this
      simpa using this
    subst hc
    have hsplit := List.splitOnP_append_cons_of_forall_mem (p := (· == slash)) hclean slash (beq_self_eq_true _) rest
    rw [hrest] at hparts
    rw [hparts] at hsplit
    rw [pieces_slash]
    unfold pieces List.splitOn
    rw [hsplit, List.filter_cons_of_pos (by simpa using hname), List.map_cons]

theorem pathElems_eq {rounds : Nat} {path : Path} (h : path.length ≤ rounds) : pathElems rounds path = pieces path := by
  induction rounds generalizing path with
  | zero =>
    obtain rfl := List.eq_nil_of_length_eq_zero (Nat.le_zero.mp h)
    rfl
  | succ rounds ih =>
    rw [pathElems, ← pieces_dropWhile path]
    unfold skipelem
    have hlen := (List.dropWhile_suffix (l := path) (fun c => decide (c = slash))).length_le
    have hhead := List.head?_dropWhile_not (fun c => decide (c = slash)) path
    generalize path.dropWhile (· = slash) = s at hlen hhead ⊢
    by_cases hs : s = []
    · simp [hs, pieces, List.splitOn]
    · have hfirst : ∀ c, s.head? = some c → c ≠ slash := fun c hc => by
        rw [hc] at hhead
        simpa using hhead
      have hshort : (s.dropWhile (· ≠ slash)).length < s.length := by
        cases s with
        | nil => exact absurd rfl hs
        | cons c s =>
          rw [List.dropWhile_cons_of_pos (by simpa using hfirst c rfl), List.length_cons]
          exact Nat.lt_succ_of_le (List.dropWhile_suffix _).length_le
      have hrest := (List.dropWhile_suffix (l := s.dropWhile (· ≠ slash)) (fun c => decide (c = slash))).length_le
      simp only [if_neg hs]
      rw [ih (by omega), pieces_dropWhile, pieces_name hs hfirst]

theorem elems_eq (path : Path) : elems path = pieces path := pathElems_eq (Nat.le_refl _)

section
variable (sb : Superblock) (s : Sys)

def lookup (i : Nat) (name : List UInt8) : Option Nat :=
  ((dirents s.disk (inodeOf sb s i)).find? fun de => de.inum ≠ 0 && de.named name).map (·.inum.toNat)

def resolve (i : Nat) : List (List UInt8) → Option Nat
  | [] => some i
  | name :: rest => if (inodeOf sb s i).type = T_DIR then (lookup sb s i name).bind fun j => resolve j rest else none

def resolveParent (i : Nat) (names : List (List UInt8)) : Option (Nat × List UInt8) :=
  names.getLast?.bind fun name =>
    (resolve sb s i names.dropLast).bind fun d => if (inodeOf sb s d).type = T_DIR then some (d, name) else none

/-- The inode is allocated, and it has a link or a reference. -/
structure Live (i : Nat) : Prop where
  bound : i < sb.ninodes
  type : (inodeOf sb s i).type ≠ 0
  kept : (inodeOf sb s i).nlink ≠ 0 ∨ ∃ e, 0 < (s.itable e).ref ∧ (s.itable e).inum = i

/-- The file system between two calls: no holes, whole entries, and all that is named is live. -/
structure WellFormed : Prop where
  uniq : Uniq s
  refs : ∀ e, 0 ≤ (s.itable e).ref
  unlocked : ∀ e, (s.itable e).locked = false
  full : ∀ i < sb.ninodes, ∀ bn, bn * BSIZE < (inodeOf sb s i).size.toNat → fileBlock s.disk (inodeOf sb s i) bn ≠ 0
  whole : ∀ i < sb.ninodes, (inodeOf sb s i).type = T_DIR → DESIZE ∣ (inodeOf sb s i).size.toNat
  entries : ∀ i < sb.ninodes, (inodeOf sb s i).type = T_DIR → ∀ de ∈ dirents s.disk (inodeOf sb s i), de.inum ≠ 0 →
    Live sb s de.inum.toNat
  table : ∀ e, 0 < (s.itable e).ref → Live sb s (s.itable e).inum
  root : Live sb s ROOTINO

end

/-! ### The inode table on the way -/

def one (e : Fin NINODE) : Fin NINODE → Int := fun e' => if e' = e then 1 else 0

/-- The walk from `s` has come to `t`: it holds `n` references and the lock of `l`, and has changed nothing but
    entries of the table. -/
structure Walk (sb : Superblock) (s t : Sys) (n : Fin NINODE → Int) (l : Option (Fin NINODE)) : Prop where
  disk : t.disk = s.disk
  ref : ∀ e, (t.itable e).ref = (s.itable e).ref + n e
  nonneg : ∀ e, 0 ≤ n e
  kept : ∀ e, 0 < (s.itable e).ref → (t.itable e).inum = (s.itable e).inum ∧
    ((s.itable e).valid = true → (t.itable e).valid = true)
  data : ∀ e, 0 < (t.itable e).ref → (t.itable e).valid = true → (t.itable e).d =
    if 0 < (s.itable e).ref ∧ (s.itable e).valid = true then (s.itable e).d else dinode sb s.disk (t.itable e).inum
  live : ∀ e, 0 < (t.itable e).ref → Live sb s (t.itable e).inum
  uniq : Uniq t
  locked : ∀ e, (t.itable e).locked = decide (l = some e)

section Walk
variable {sb : Superblock} {s t : Sys} {n : Fin NINODE → Int} {l : Option (Fin NINODE)} {ip : Fin NINODE} {i : Nat}

theorem WellFormed.walk (h : WellFormed sb s) : Walk sb s s (fun _ => 0) none where
  disk := rfl
  ref _ := (Int.add_zero _).symm
  nonneg _ := Int.le_refl _
  kept _ _ := ⟨rfl, id⟩
  data e href hv := (if_pos ⟨href, hv⟩).symm
  live := h.table
  uniq := h.uniq
  locked e := (h.unlocked e).trans (by simp)

variable (hs : WellFormed sb s)

include hs in
theorem Walk.d_eq (h : Walk sb s t n l) (href : 0 < (t.itable ip).ref) (hv : (t.itable ip).valid = true) :
    (t.itable ip).d = inodeOf sb s (t.itable ip).inum := by
  rw [h.data ip href hv]
  by_cases hold : 0 < (s.itable ip).ref ∧ (s.itable ip).valid = true
  · rw [if_pos hold, (h.kept ip hold.1).1, inodeOf_entry hs.uniq hold.1 hold.2]
  · rw [if_neg hold]
    unfold inodeOf
    split
    · -- another entry for the inode would be in use now, too
      rename_i e hfind
      have hfound := List.find?_some hfind
      simp only [Bool.and_eq_true, decide_eq_true_eq, beq_iff_eq] at hfound
      have he := h.kept e hfound.1.1
      have hpos : 0 < (t.itable e).ref := by
        have := h.ref e
        have := h.nonneg e
        omega
      have heq := h.uniq e ip hpos href (he.1.trans hfound.2)
      rw [heq] at hfound
      exact absurd hfound.1 hold
    · rfl

theorem Walk.set (h : Walk sb s t n l) {u : Sys} {e : Fin NINODE} {m : Fin NINODE → Int} {k : Option (Fin NINODE)}
    (hdisk : u.disk = t.disk) (hother : ∀ e', e' ≠ e → u.itable e' = t.itable e' ∧ m e' = n e' ∧ (k = some e' ↔ l = some e'))
    (href : (u.itable e).ref = (s.itable e).ref + m e) (hnonneg : 0 ≤ m e)
    (hkept : 0 < (s.itable e).ref → (u.itable e).inum = (s.itable e).inum ∧
      ((s.itable e).valid = true → (u.itable e).valid = true))
    (hdata : 0 < (u.itable e).ref → (u.itable e).valid = true → (u.itable e).d =
      if 0 < (s.itable e).ref ∧ (s.itable e).valid = true then (s.itable e).d else dinode sb s.disk (u.itable e).inum)
    (hlive : 0 < (u.itable e).ref → Live sb s (u.itable e).inum)
    (huniq : 0 < (u.itable e).ref → ∀ e', e' ≠ e → 0 < (t.itable e').ref → (t.itable e').inum ≠ (u.itable e).inum)
    (hlocked : (u.itable e).locked = decide (k = some e)) : Walk sb s u m k := by
  refine ⟨hdisk.trans h.disk, fun e' => ?_, fun e' => ?_, fun e' => ?_, fun e' => ?_, fun e' => ?_, fun e' e'' => ?_,
    fun e' => ?_⟩
  · by_cases he : e' = e
    · rw [he, href]
    · rw [(hother e' he).1, (hother e' he).2.1, h.ref e']
  · by_cases he : e' = e
    · rw [he]
      exact hnonneg
    · rw [(hother e' he).2.1]
      exact h.nonneg e'
  · by_cases he : e' = e
    · rw [he]
      exact hkept
    · rw [(hother e' he).1]
      exact h.kept e'
  · by_cases he : e' = e
    · rw [he]
      exact hdata
    · rw [(hother e' he).1]
      exact h.data e'
  · by_cases he : e' = e
    · rw [he]
      exact hlive
    · rw [(hother e' he).1]
      exact h.live e'
  · by_cases he : e' = e <;> by_cases he' : e'' = e
    · intro _ _ _
      rw [he, he']
    · rw [he, (hother e'' he').1]
      exact fun hpos hpos' heq => absurd heq.symm (huniq hpos e'' he' hpos')
    · rw [he', (hother e' he).1]
      exact fun hpos hpos' heq => absurd heq (huniq hpos' e' he hpos)
    · rw [(hother e' he).1, (hother e'' he').1]
      exact h.uniq e' e''
  · by_cases he : e' = e
    · rw [he, hlocked]
    · rw [(hother e' he).1, h.locked e', decide_eq_decide]
      exact (hother e' he).2.2.symm

theorem Walk.uniq_of (h : Walk sb s t n l) {e : Fin NINODE} (he : 0 < (t.itable e).ref) :
    ∀ e', e' ≠ e → 0 < (t.itable e').ref → (t.itable e').inum ≠ (t.itable e).inum :=
  fun e' hne hpos heq => hne (h.uniq e' e hpos he heq)

theorem one_self (e : Fin NINODE) : one e e = 1 := if_pos rfl

theorem one_ne {e e' : Fin NINODE} (h : e' ≠ e) : one e e' = 0 := if_neg h

include hs in
theorem Walk.pos (h : Walk sb s t n l) {e : Fin NINODE} (he : 0 < n e) : 0 < (t.itable e).ref := by
  have := h.ref e
  have := hs.refs e
  omega

theorem Walk.dup (h : Walk sb s t n l) {e : Fin NINODE} (he : 0 < (t.itable e).ref) :
    Walk sb s (t.setInode e ((t.itable e).setRef ((t.itable e).ref + 1))) (fun e' => n e' + one e e') l := by
  refine h.set (e := e) rfl (fun e' hne => ⟨by rw [setInode_itable, if_neg hne], by rw [one_ne hne, Int.add_zero], Iff.rfl⟩)
    ?_ ?_ ?_ ?_ ?_ ?_ ?_ <;> simp only [setInode_self, one_self]
  · rw [show ((t.itable e).setRef ((t.itable e).ref + 1)).ref = (t.itable e).ref + 1 from rfl, h.ref e, Int.add_assoc]
  · have := h.nonneg e
    omega
  · exact h.kept e
  · exact fun _ hv => h.data e he hv
  · exact fun _ => h.live e he
  · exact fun _ => h.uniq_of he
  · exact h.locked e

include hs in
theorem Walk.iget (h : Walk sb s t n l) (hlive : Live sb s i) (hfree : ∃ e, (t.itable e).ref = 0) :
    wp (iget i) (fun e u => Walk sb s u (fun e' => n e' + one e e') l ∧ (u.itable e).inum = i ∧
      ∀ e', 0 < (t.itable e').ref → (u.itable e').inum = (t.itable e').inum ∧ (u.itable e').valid = (t.itable e').valid ∧
        (u.itable e').d = (t.itable e').d) (fun _ _ => False) t := by
  cases hfind : (List.finRange NINODE).find? (fun e => 0 < (t.itable e).ref && (t.itable e).inum == i) with
  | some e =>
    have hfound := List.find?_some hfind
    rw [Bool.and_eq_true, decide_eq_true_eq, beq_iff_eq] at hfound
    unfold Fs.iget onInode
    rw [wp_bind, wp_view, hfind]
    simp only
    rw [wp_bind, wp_change, wp_pure]
    refine ⟨h.dup hfound.1, by rw [setInode_self]; exact hfound.2, fun e' _ => ?_⟩
    by_cases hne : e' = e
    · rw [hne, setInode_self]
      exact ⟨rfl, rfl, rfl⟩
    · rw [setInode_itable, if_neg hne]
      exact ⟨rfl, rfl, rfl⟩
  | none =>
    have hnone : ∀ e, 0 < (t.itable e).ref → (t.itable e).inum ≠ i := fun e he heq => by
      have := List.find?_eq_none.mp hfind e (List.mem_finRange e)
      rw [Bool.and_eq_true, decide_eq_true_eq, beq_iff_eq] at this
      exact this ⟨he, heq⟩
    refine wp_post (wp_iget_new hnone hfree) fun e u ⟨hzero, hu⟩ => ?_
    subst hu
    have hsum := h.ref e
    have hpos := hs.refs e
    have hn := h.nonneg e
    have hx := setInode_self t e { t.itable e with inum := i, ref := 1, valid := false }
    have hother : ∀ e', e' ≠ e → (t.setInode e { t.itable e with inum := i, ref := 1, valid := false }).itable e' =
        t.itable e' := fun e' hne => by rw [setInode_itable, if_neg hne]
    refine ⟨h.set (e := e) rfl (fun e' hne => ⟨hother e' hne, ?_, Iff.rfl⟩) ?_ ?_ ?_ ?_ ?_ ?_ ?_, by rw [hx], fun e' he' => ?_⟩
    · rw [one_ne hne, Int.add_zero]
    · rw [hx, one_self]
      change (1 : Int) = _
      omega
    · rw [one_self]
      omega
    · exact fun hold => absurd hold (by omega)
    · rw [hx]
      exact fun _ hv => nomatch hv
    · rw [hx]
      exact fun _ => hlive
    · rw [hx]
      exact fun _ e' _ he' => hnone e' he'
    · rw [hx]
      exact h.locked e
    · have hne : e' ≠ e := fun heq => by
        rw [heq, hzero] at he'
        exact absurd he' (by decide)
      rw [hother e' hne]
      exact ⟨rfl, rfl, rfl⟩

include hs in
theorem Walk.ilock (h : Walk sb s t n none) (hip : 0 < n ip) :
    wp (ilock sb ip) (fun _ u => Walk sb s u n (some ip) ∧ (u.itable ip).valid = true ∧
      (u.itable ip).inum = (t.itable ip).inum) (fun _ _ => False) t := by
  have href := h.pos hs hip
  have hfree : (t.itable ip).locked = false := (h.locked ip).trans (by simp)
  have hlive := h.live ip href
  have hkeys : ∀ e', e' ≠ ip → (some ip = some e' ↔ none = some e') := fun e' hne => by
    simp [Ne.symm hne]
  unfold Fs.ilock onInode
  simp only [wp_bind, wp_view, wp_stopIf, wp_change, wp_doIf, setInode_self, setInode_disk]
  refine ⟨fun hlt => absurd hlt (by omega), fun _ => ⟨fun hl => ?_, fun _ => ⟨fun hv => ?_, fun hv => ?_⟩⟩⟩
  · rw [hfree] at hl
    cases hl
  · -- the copy is read from the disk
    have hold : ¬(0 < (s.itable ip).ref ∧ (s.itable ip).valid = true) := fun ho => by
      rw [(h.kept ip ho.1).2 ho.2] at hv
      cases hv
    have hwalk : ∀ u : Sys, u.disk = t.disk → (∀ e', e' ≠ ip → u.itable e' = t.itable e') →
        u.itable ip = ((((t.itable ip).setLocked true).setD (dinode sb t.disk (t.itable ip).inum)).setValid true) →
        Walk sb s u n (some ip) := fun u hd ho hx => by
      refine h.set (e := ip) hd (fun e' hne => ⟨ho e' hne, rfl, hkeys e' hne⟩) ?_ (h.nonneg ip) ?_ ?_ ?_ ?_ ?_ <;> rw [hx]
      · exact h.ref ip
      · exact fun hpos => ⟨(h.kept ip hpos).1, fun _ => rfl⟩
      · intro _ _
        rw [if_neg hold, ← h.disk]
        rfl
      · exact fun _ => hlive
      · exact fun _ => h.uniq_of href
      · simp [Inode.setValid, Inode.setD, Inode.setLocked]
    have hd := hwalk ((t.setInode ip ((t.itable ip).setLocked true)).setInode ip
      ((((t.itable ip).setLocked true).setD (dinode sb t.disk (t.itable ip).inum)).setValid true)) rfl
      (fun e' hne => by rw [setInode_itable, if_neg hne, setInode_itable, if_neg hne]) (setInode_self ..)
    have hval := hd.d_eq hs (show 0 < (Sys.itable _ ip).ref by rw [setInode_self]; exact href) (by rw [setInode_self]; rfl)
    rw [setInode_self] at hval
    refine ⟨fun htype => ?_, fun _ => ⟨hd, rfl, rfl⟩⟩
    have htype' : (inodeOf sb s (t.itable ip).inum).type = 0 := by
      have hd' : dinode sb t.disk (t.itable ip).inum = inodeOf sb s (t.itable ip).inum := hval
      rw [← hd']
      exact htype
    exact hlive.type htype'
  · have hv' : (t.itable ip).valid = true := by simpa using hv
    refine ⟨h.set (e := ip) rfl (fun e' hne => ⟨by rw [setInode_itable, if_neg hne], rfl, hkeys e' hne⟩) ?_ (h.nonneg ip)
      ?_ ?_ ?_ ?_ ?_, hv', rfl⟩ <;> simp only [setInode_self]
    · exact h.ref ip
    · exact h.kept ip
    · exact fun _ _ => h.data ip href hv'
    · exact fun _ => hlive
    · exact fun _ => h.uniq_of href
    · simp [Inode.setLocked]

include hs in
theorem Walk.iunlock (h : Walk sb s t n (some ip)) (hip : 0 < n ip) :
    wp (iunlock sb ip) (fun _ u => Walk sb s u n none ∧ ∀ e, (u.itable e).inum = (t.itable e).inum)
      (fun _ _ => False) t := by
  have href := h.pos hs hip
  have hlock : (t.itable ip).locked = true := (h.locked ip).trans (by simp)
  unfold Fs.iunlock onInode onGhost
  simp only [wp_bind, wp_view, wp_stopIf, wp_change]
  refine ⟨fun hbad => ?_, fun _ => ⟨?_, fun e => ?_⟩⟩
  · rw [hlock] at hbad
    rcases hbad with hbad | hbad
    · cases hbad
    · omega
  · refine h.set (e := ip) rfl (fun e' hne => ⟨by rw [setInode_itable, if_neg hne], rfl, by simp [Ne.symm hne]⟩) ?_
      (h.nonneg ip) ?_ ?_ ?_ ?_ ?_ <;> simp only [setInode_self]
    · exact h.ref ip
    · exact h.kept ip
    · exact fun _ hv => h.data ip href hv
    · exact fun _ => h.live ip href
    · exact fun _ => h.uniq_of href
    · simp [Inode.setLocked]
  · by_cases he : e = ip
    · rw [he, setInode_self]
      rfl
    · rw [setInode_itable, if_neg he]

include hs in
theorem Walk.iput (h : Walk sb s t n none) (hip : 0 < n ip) :
    wp (iput sb ip) (fun _ u => Walk sb s u (fun e => n e - one ip e) none ∧
      ∀ e, (u.itable e).inum = (t.itable e).inum) (fun _ _ => False) t := by
  have href := h.pos hs hip
  have hlive := h.live ip href
  unfold Fs.iput onInode
  simp only [wp_bind, wp_view, wp_change, wp_doIf]
  refine ⟨fun hlast => ?_, fun _ => ⟨?_, fun e => ?_⟩⟩
  · obtain ⟨hone, hv, hnlink⟩ := hlast
    have hsum := h.ref ip
    have hpos := hs.refs ip
    rcases hlive.kept with hlink | ⟨e, he, hinum⟩
    · rw [← h.d_eq hs href hv] at hlink
      exact absurd hnlink hlink
    · have hepos : 0 < (t.itable e).ref := by
        have := h.ref e
        have := h.nonneg e
        omega
      have heq := h.uniq e ip hepos href ((h.kept e he).1.trans hinum)
      rw [heq] at he
      omega
  · refine h.set (e := ip) rfl (fun e' hne => ⟨by rw [setInode_itable, if_neg hne], by rw [one_ne hne, Int.sub_zero], Iff.rfl⟩)
      ?_ ?_ ?_ ?_ ?_ ?_ ?_ <;> simp only [setInode_self, one_self]
    · rw [show ((t.itable ip).setRef ((t.itable ip).ref - 1)).ref = (t.itable ip).ref - 1 from rfl, h.ref ip]
      omega
    · omega
    · exact h.kept ip
    · exact fun _ hv => h.data ip href hv
    · exact fun _ => hlive
    · exact fun _ => h.uniq_of href
    · exact h.locked ip
  · by_cases he : e = ip
    · rw [he, setInode_self]
      rfl
    · rw [setInode_itable, if_neg he]

structure Entries (t : Sys) (ip : Fin NINODE) (m : Nat) : Prop where
  type : (t.itable ip).d.type = T_DIR
  size : (t.itable ip).d.size.toNat = DESIZE * m
  full : ∀ bn, bn * BSIZE < (t.itable ip).d.size.toNat → fileBlock t.disk (t.itable ip).d bn ≠ 0

theorem Entries.size_le {m : Nat} (h : Entries t ip m) : DESIZE * m ≤ MAXFILE * BSIZE := by
  by_contra hlt
  refine h.full MAXFILE (by rw [h.size]; omega) ?_
  unfold fileBlock MAXFILE
  rw [if_neg (by omega), if_neg (by omega)]

theorem Entries.small {m : Nat} (h : Entries t ip m) : DESIZE * m < 2 ^ 31 := by
  have hmax := h.size_le
  unfold MAXFILE NDIRECT NINDIRECT BSIZE at hmax
  omega

theorem ofBytes_slice (t : Sys) (e : Fin NINODE) (k : Nat) :
    Dirent.ofBytes (slice t e (DESIZE * k) DESIZE) = direntAt t.disk (t.itable e).d k := by
  rw [Nat.mul_comm]
  have hget : ∀ x < DESIZE, (slice t e (k * DESIZE) DESIZE).getD x 0 = fileByte t.disk (t.itable e).d (k * DESIZE + x) := by
    intro x hx
    unfold slice
    rw [List.getD_eq_getElem _ _ (by simpa using hx), List.getElem_map, List.getElem_range]
  unfold Dirent.ofBytes direntAt
  rw [hget 0 (by decide), hget 1 (by decide)]
  congr 1
  funext x
  have hx := x.isLt
  unfold DIRSIZ at hx
  rw [hget (2 + x) (by unfold DESIZE; omega), Nat.add_assoc]

theorem wp_readDirent_at {m k : Nat} (h : Entries t ip m) (hk : k < m) (msg : String) :
    wp (readDirent sb ip (DESIZE * k) msg) (fun de u => de = direntAt t.disk (t.itable ip).d k ∧ u = t)
      (fun _ _ => False) t := by
  have hD : DESIZE = 16 := rfl
  have hsmall := h.small
  have hnext : DESIZE * k + DESIZE ≤ DESIZE * m := by
    rw [← Nat.mul_succ]
    exact Nat.mul_le_mul_left _ hk
  have hlen : readLen (t.itable ip).d.size.toNat (DESIZE * k) DESIZE = DESIZE := by
    unfold readLen
    rw [h.size]
    omega
  have hcov : Covered t ip (DESIZE * k) (readLen (t.itable ip).d.size.toNat (DESIZE * k) DESIZE) := fun x hx hx' => by
    rw [hlen] at hx'
    refine h.full _ (Nat.lt_of_le_of_lt (Nat.div_mul_le_self x BSIZE) ?_)
    rw [h.size]
    omega
  unfold readDirent
  refine wp_then (wp_readi (by omega) hcov) fun r v ⟨hr, hv⟩ => ?_
  subst hr hv
  rw [hlen]
  simp only [wp_bind, wp_stopIf, wp_pure, ne_eq, not_true_eq_false, false_implies, not_false_eq_true, forall_const,
    true_and, and_true]
  rw [ofBytes_slice]

def Dirent.holds (de : Dirent) (name : List UInt8) : Bool := de.inum ≠ 0 && de.named name

theorem wp_dirlookup_at {m : Nat} {name : List UInt8} (h : Entries t ip m) {Q : Option (Fin NINODE × Nat) → Sys → Prop}
    {E : Stop → Sys → Prop}
    (hfound : ∀ k < m, (direntAt t.disk (t.itable ip).d k).holds name = true →
      (∀ j < k, (direntAt t.disk (t.itable ip).d j).holds name = false) →
      wp (iget (direntAt t.disk (t.itable ip).d k).inum.toNat) (fun e u => Q (some (e, DESIZE * k)) u) E t)
    (hnone : (∀ j < m, (direntAt t.disk (t.itable ip).d j).holds name = false) → Q none t) :
    wp (dirlookup sb ip name) Q E t := by
  have hD : DESIZE = 16 := rfl
  have hsmall := h.small
  unfold dirlookup
  rw [wp_bind, wp_view, h.size, wp_bind, wp_stopIf]
  refine ⟨fun hne => absurd h.type hne, fun _ => ?_⟩
  refine wp_forUp (I := fun a u => u = t ∧ ∃ j ≤ m, a = DESIZE * j ∧
      ∀ x < j, (direntAt t.disk (t.itable ip).d x).holds name = false)
    (by decide) ⟨rfl, 0, Nat.zero_le _, rfl, fun x hx => absurd hx (Nat.not_lt_zero x)⟩ ?_ ?_
  · rintro a u ha ⟨rfl, j, hj, rfl, hbefore⟩
    have hjm : j < m := Nat.lt_of_mul_lt_mul_left ha
    have hnext : DESIZE * j + DESIZE ≤ DESIZE * m := by
      rw [← Nat.mul_succ]
      exact Nat.mul_le_mul_left _ hjm
    rw [wp_bind]
    refine wp_mono (wp_readDirent_at h hjm _) (fun de v ⟨hde, hv⟩ => ?_) fun _ _ hf => hf.elim
    subst hde hv
    -- on to the next entry
    have hgo : (direntAt v.disk (v.itable ip).d j).holds name = false →
        DESIZE * j + DESIZE < 2 ^ 32 ∧ v = v ∧ ∃ j' ≤ m, DESIZE * j + DESIZE = DESIZE * j' ∧
          ∀ x < j', (direntAt v.disk (v.itable ip).d x).holds name = false := by
      intro hnot
      refine ⟨by omega, rfl, j + 1, hjm, by rw [Nat.mul_succ], fun x hx => ?_⟩
      rcases Nat.lt_succ_iff_lt_or_eq.mp hx with hlt | rfl
      · exact hbefore x hlt
      · exact hnot
    by_cases hz : (direntAt v.disk (v.itable ip).d j).inum = 0
    · rw [if_pos hz]
      exact hgo (by simp [Dirent.holds, hz])
    · rw [if_neg hz]
      by_cases hname : (direntAt v.disk (v.itable ip).d j).named name = true
      · rw [if_pos hname]
        exact wp_then (hfound j hjm (by simp [Dirent.holds, hz, hname]) hbefore) fun e u hq => hq
      · rw [if_neg hname]
        exact hgo (by simp [Dirent.holds, hname])
  · rintro a u ha ⟨rfl, j, hj, rfl, hbefore⟩
    have hjm : m ≤ j := Nat.le_of_mul_le_mul_left ha (by decide)
    exact hnone fun x hx => hbefore x (by omega)

include hs in
theorem wp_dirlookup_all {d : Nat} {name : List UInt8} (hd : (t.itable ip).d = inodeOf sb s d) (hdisk : t.disk = s.disk)
    (hdb : d < sb.ninodes) (htype : (inodeOf sb s d).type = T_DIR)
    {Q : Option (Fin NINODE × Nat) → Sys → Prop}
    (hfound : ∀ k j, lookup sb s d name = some j → wp (iget j) (fun e u => Q (some (e, k)) u) (fun _ _ => False) t)
    (hnone : lookup sb s d name = none → Q none t) : wp (dirlookup sb ip name) Q (fun _ _ => False) t := by
  obtain ⟨m, hm⟩ := hs.whole d hdb htype
  have hents : dirents s.disk (inodeOf sb s d) = (List.range m).map (direntAt s.disk (inodeOf sb s d)) := by
    unfold dirents
    rw [hm, Nat.mul_div_cancel_left _ (by decide)]
  have hentries : Entries t ip m := ⟨by rw [hd, htype], by rw [hd, hm], by rw [hd, hdisk]; exact hs.full d hdb⟩
  have hlook : lookup sb s d name = ((List.range m).find? fun k => (direntAt s.disk (inodeOf sb s d) k).holds name).map
      fun k => (direntAt s.disk (inodeOf sb s d) k).inum.toNat := by
    unfold lookup
    rw [hents, List.find?_map, Option.map_map]
    rfl
  rw [hlook] at hfound hnone
  refine wp_dirlookup_at hentries (fun k hk hname hbefore => ?_) fun hall => hnone ?_
  · rw [hdisk, hd] at hname hbefore ⊢
    refine hfound (DESIZE * k) _ ?_
    rw [List.find?_range_eq_some.mpr ⟨hname, List.mem_range.mpr hk, fun j hj => by rw [hbefore j hj]; rfl⟩]
    rfl
  · rw [hdisk, hd] at hall
    rw [Option.map_eq_none_iff, List.find?_eq_none]
    intro k hk
    rw [hall k (List.mem_range.mp hk)]
    decide

theorem lookup_live (h : WellFormed sb s) {d j : Nat} {name : List UInt8} (hd : d < sb.ninodes)
    (htype : (inodeOf sb s d).type = T_DIR) (hj : lookup sb s d name = some j) : Live sb s j := by
  unfold lookup at hj
  obtain ⟨de, hfind, rfl⟩ := Option.map_eq_some_iff.mp hj
  have hde := List.find?_some hfind
  rw [Bool.and_eq_true, decide_eq_true_eq] at hde
  exact h.entries d hd htype de (List.mem_of_find?_eq_some hfind) hde.1

/-! ### `namex` -/

section
variable {name : List UInt8} {rest : List (List UInt8)}

theorem resolveParent_not_dir (h : (inodeOf sb s i).type ≠ T_DIR) : resolveParent sb s i (name :: rest) = none := by
  unfold resolveParent
  cases rest with
  | nil => simp [resolve, h]
  | cons next rest => simp [resolve, h, List.getLast?_cons]

theorem resolveParent_single (h : (inodeOf sb s i).type = T_DIR) : resolveParent sb s i [name] = some (i, name) := by
  simp [resolveParent, resolve, h]

theorem resolveParent_cons (h : (inodeOf sb s i).type = T_DIR) (hrest : rest ≠ []) : resolveParent sb s i (name :: rest) =
    (lookup sb s i name).bind fun j => resolveParent sb s j rest := by
  obtain ⟨next, tail, rfl⟩ := List.exists_cons_of_ne_nil hrest
  unfold resolveParent
  rw [List.dropLast_cons_of_ne_nil hrest, resolve, if_pos h, List.getLast?_cons_cons]
  cases lookup sb s i name with
  | none => simp
  | some j => rfl

theorem resolve_parent {names : List (List UInt8)} {j : Nat} (hne : names ≠ []) (h : resolve sb s i names = some j) :
    ∃ d name, resolveParent sb s i names = some (d, name) ∧ lookup sb s d name = some j := by
  induction names generalizing i with
  | nil => exact absurd rfl hne
  | cons name rest ih =>
    rw [resolve] at h
    by_cases htype : (inodeOf sb s i).type = T_DIR
    · rw [if_pos htype] at h
      obtain ⟨k, hk, hrest⟩ := Option.bind_eq_some_iff.mp h
      by_cases hnil : rest = []
      · subst hnil
        obtain rfl := Option.some.inj hrest
        exact ⟨i, name, resolveParent_single htype, hk⟩
      · obtain ⟨d, last, hparent, hlook⟩ := ih hnil hrest
        refine ⟨d, last, ?_, hlook⟩
        rw [resolveParent_cons htype hnil, hk]
        exact hparent
    · rw [if_neg htype] at h
      cases h

end

def TwoFree (s : Sys) : Prop := ∃ a b, a ≠ b ∧ (s.itable a).ref = 0 ∧ (s.itable b).ref = 0

theorem Walk.free (h : Walk sb s t (one ip) l) (hfree : TwoFree s) : ∃ e, (t.itable e).ref = 0 := by
  obtain ⟨a, b, hab, ha, hb⟩ := hfree
  by_cases hip : a = ip
  · exact ⟨b, by rw [h.ref b, hb, one_ne fun he => hab (hip.trans he.symm)]; rfl⟩
  · exact ⟨a, by rw [h.ref a, ha, one_ne hip]; rfl⟩

theorem Walk.congr (h : Walk sb s t n l) {m : Fin NINODE → Int} (hm : ∀ e, m e = n e) : Walk sb s t m l := by
  rwa [show m = n from funext hm]

include hs in
theorem Walk.iunlockput (h : Walk sb s t n (some ip)) (hip : 0 < n ip) :
    wp (iunlockput sb ip) (fun _ u => Walk sb s u (fun e => n e - one ip e) none ∧
      ∀ e, (u.itable e).inum = (t.itable e).inum) (fun _ _ => False) t := by
  unfold Fs.iunlockput
  refine wp_then (h.iunlock hs hip) fun _ u ⟨hu, hinum⟩ => ?_
  refine wp_post (hu.iput hs hip) fun _ v ⟨hv, hinum'⟩ => ⟨hv, fun e => ?_⟩
  rw [hinum', hinum]

include hs in
theorem Walk.next {name : List UInt8} (h : Walk sb s t (one ip) (some ip)) (hfree : TwoFree s)
    (hv : (t.itable ip).valid = true) (htype : (inodeOf sb s (t.itable ip).inum).type = T_DIR) {α : Type}
    {f g : Option (Fin NINODE × Nat) → M α} {Q : α → Sys → Prop} (hg : ∀ r, g r = (Fs.iunlockput sb ip >>= fun _ => f r))
    (hnone : lookup sb s (t.itable ip).inum name = none → ∀ u, Walk sb s u (fun _ => 0) none →
      wp (f none) Q (fun _ _ => False) u)
    (hsome : ∀ e k j, lookup sb s (t.itable ip).inum name = some j → ∀ u, Walk sb s u (one e) none → (u.itable e).inum = j →
      wp (f (some (e, k))) Q (fun _ _ => False) u) :
    wp (dirlookup sb ip name >>= g) Q (fun _ _ => False) t := by
  have hip : 0 < one ip ip := by rw [one_self]; decide
  have href := h.pos hs hip
  have hlive := h.live ip href
  rw [wp_bind]
  refine wp_dirlookup_all hs (h.d_eq hs href hv) h.disk hlive.bound htype (fun k j hj => ?_) fun hnot => ?_
  · refine wp_post (h.iget hs (lookup_live hs hlive.bound htype hj) (h.free hfree)) fun e u ⟨hu, hinum, _⟩ => ?_
    have hpos : 0 < one ip ip + one e ip := by
      unfold one
      split <;> split <;> omega
    rw [hg]
    refine wp_then (hu.iunlockput hs hpos) fun _ w ⟨hw, hinum'⟩ => ?_
    exact hsome e k j hj w (hw.congr fun e' => by omega) ((hinum' e).trans hinum)
  · rw [hg]
    refine wp_then (h.iunlockput hs hip) fun _ w ⟨hw, _⟩ => ?_
    exact hnone hnot w (hw.congr fun e' => by omega)

include hs in
theorem wp_namexLoop (hfree : TwoFree s) {names : List (List UInt8)} (h : Walk sb s t (one ip) none) :
    wp (namexLoop sb ip names) (fun r u => (r.map fun e => (u.itable e).inum) = resolve sb s (t.itable ip).inum names ∧
      Walk sb s u (fun e => if r = some e then 1 else 0) none) (fun _ _ => False) t := by
  have hip : 0 < one ip ip := by rw [one_self]; decide
  induction names generalizing t ip with
  | nil =>
    refine ⟨rfl, h.congr fun e => ?_⟩
    unfold one
    simp only [Option.some.injEq, eq_comm]
  | cons name rest ih =>
    rw [namexLoop]
    refine wp_then (h.ilock hs hip) fun _ u hlk => ?_
    obtain ⟨hu, hv, hinum⟩ := hlk
    have hd := hu.d_eq hs (hu.pos hs hip) hv
    rw [wp_bind, wp_view, wp_ite, ← hinum, resolve]
    split
    · rename_i htype
      rw [hd] at htype
      rw [if_neg htype]
      refine wp_then (hu.iunlockput hs hip) fun _ w hw => ⟨rfl, hw.1.congr fun e => ?_⟩
      simp
    · rename_i htype
      rw [not_not, hd] at htype
      rw [if_pos htype]
      refine hu.next hs hfree hv htype (f := fun r => r.elim (pure none) fun x => namexLoop sb x.1 rest)
        (fun r => by cases r <;> rfl) (fun hnot w hw => ?_) fun e k j hj w hw he => ?_
      · rw [hnot]
        exact ⟨rfl, hw.congr fun e => by simp⟩
      · rw [hj]
        refine wp_post (ih hw (by rw [one_self]; decide)) fun r v hr => ?_
        rw [he] at hr
        exact hr

include hs in
theorem wp_namexParent (hfree : TwoFree s) {names : List (List UInt8)} (h : Walk sb s t (one ip) none) :
    wp (namexParent sb ip names) (fun r u => (r.map fun x => ((u.itable x.1).inum, x.2)) =
        resolveParent sb s (t.itable ip).inum names ∧
      Walk sb s u (fun e => if r.map Prod.fst = some e then 1 else 0) none) (fun _ _ => False) t := by
  have hip : 0 < one ip ip := by rw [one_self]; decide
  induction names generalizing t ip with
  | nil =>
    rw [namexParent]
    refine wp_then (h.iput hs hip) fun _ u hu => ⟨rfl, hu.1.congr fun e => ?_⟩
    simp
  | cons name rest ih =>
    rw [namexParent]
    refine wp_then (h.ilock hs hip) fun _ u hlk => ?_
    obtain ⟨hu, hv, hinum⟩ := hlk
    have hd := hu.d_eq hs (hu.pos hs hip) hv
    rw [wp_bind, wp_view, wp_ite, ← hinum]
    split
    · rename_i htype
      rw [hd] at htype
      refine wp_then (hu.iunlockput hs hip) fun _ w hw => ⟨?_, hw.1.congr fun e => by simp⟩
      exact (resolveParent_not_dir htype).symm
    · rename_i htype
      rw [not_not, hd] at htype
      rw [wp_ite]
      split
      · rename_i hlast
        refine wp_then (hu.iunlock hs hip) fun _ w hw => ⟨?_, hw.1.congr fun e => ?_⟩
        · rw [hlast, resolveParent_single htype, Option.map_some, hw.2]
        · unfold one
          simp only [Option.map_some, Option.some.injEq, eq_comm]
      · rename_i hrest
        refine hu.next hs hfree hv htype (f := fun r => r.elim (pure none) fun x => namexParent sb x.1 rest)
          (fun r => by cases r <;> rfl) (fun hnot w hw => ?_)
          fun e k j hj w hw he => ?_
        · rw [resolveParent_cons htype hrest, hnot]
          exact ⟨rfl, hw.congr fun e => by simp⟩
        · rw [resolveParent_cons htype hrest, hj]
          refine wp_post (ih hw (by rw [one_self]; decide)) fun r v hr => ?_
          rw [he] at hr
          exact hr

def startOf (s : Sys) (cwd : Fin NINODE) (path : Path) : Nat :=
  if path.head? = some slash then ROOTINO else (s.itable cwd).inum

variable {p : Fin NPROC} {cwd : Fin NINODE}

include hs in
theorem wp_namexStart (hfree : TwoFree s) (hcwd : (s.proc p).cwd = some cwd) (href : 0 < (s.itable cwd).ref) (path : Path) :
    wp (namexStart p path) (fun ip t => Walk sb s t (one ip) none ∧ (t.itable ip).inum = startOf s cwd path)
      (fun _ _ => False) s := by
  unfold namexStart startOf
  rw [wp_ite]
  split
  · obtain ⟨a, -, -, ha, -⟩ := hfree
    refine wp_post (hs.walk.iget hs hs.root ⟨a, ha⟩) fun e t ⟨ht, hinum, _⟩ => ⟨ht.congr fun e' => by omega, hinum⟩
  · rw [wp_bind, wp_view, hcwd]
    simp only
    unfold idup onInode
    rw [wp_bind, wp_change, wp_pure]
    refine ⟨(hs.walk.dup href).congr fun e' => by omega, ?_⟩
    rw [setInode_self]
    rfl

include hs in
theorem wp_namei (hfree : TwoFree s) (hcwd : (s.proc p).cwd = some cwd) (href : 0 < (s.itable cwd).ref) (path : Path) :
    wp (namei sb p path) (fun r t => (r.map fun e => (t.itable e).inum) =
      resolve sb s (startOf s cwd path) (pieces path) ∧ Walk sb s t (fun e => if r = some e then 1 else 0) none)
      (fun _ _ => False) s := by
  unfold namei
  rw [wp_bind, elems_eq]
  refine wp_post (wp_namexStart hs hfree hcwd href path) fun ip t ⟨ht, hstart⟩ => ?_
  rw [← hstart]
  exact wp_namexLoop hs hfree ht

/-- With two free entries in the inode table, `namei` returns the inode that the pieces of the path lead to, or 0, and
    `nameiparent` the directory before the last piece; the counts change by the reference returned. -/
theorem path_resolution (hs : WellFormed sb s) (hfree : TwoFree s) (hcwd : (s.proc p).cwd = some cwd)
    (href : 0 < (s.itable cwd).ref) (path : Path) :
    (∃ r t, exec (namei sb p path) s = .ok (r, t) ∧
      (r.map fun e => (t.itable e).inum) = resolve sb s (startOf s cwd path) (pieces path) ∧
      t.disk = s.disk ∧ ∀ e, (t.itable e).ref = (s.itable e).ref + if r = some e then 1 else 0) ∧
    (∃ r t, exec (nameiparent sb p path) s = .ok (r, t) ∧
      (r.map fun x => ((t.itable x.1).inum, x.2)) = resolveParent sb s (startOf s cwd path) (pieces path) ∧
      t.disk = s.disk ∧ ∀ e, (t.itable e).ref = (s.itable e).ref + if r.map Prod.fst = some e then 1 else 0) ∧
    ∀ j, pieces path ≠ [] → resolve sb s (startOf s cwd path) (pieces path) = some j →
      ∃ d name, resolveParent sb s (startOf s cwd path) (pieces path) = some (d, name) ∧ lookup sb s d name = some j := by
  refine ⟨?_, ?_, fun j hne hj => resolve_parent hne hj⟩
  · obtain ⟨r, t, hrun, hr, ht⟩ := exec_of_wp (wp_namei hs hfree hcwd href path)
    exact ⟨r, t, hrun, hr, ht.disk, ht.ref⟩
  · have hwp : wp (nameiparent sb p path) (fun r t => (r.map fun x => ((t.itable x.1).inum, x.2)) =
        resolveParent sb s (startOf s cwd path) (pieces path) ∧
        Walk sb s t (fun e => if r.map Prod.fst = some e then 1 else 0) none) (fun _ _ => False) s := by
      unfold nameiparent
      rw [wp_bind, elems_eq]
      refine wp_post (wp_namexStart hs hfree hcwd href path) fun ip t ⟨ht, hstart⟩ => ?_
      rw [← hstart]
      exact wp_namexParent hs hfree ht
    obtain ⟨r, t, hrun, hr, ht⟩ := exec_of_wp hwp
    exact ⟨r, t, hrun, hr, ht.disk, ht.ref⟩

end Walk


namespace Small

def sb : Superblock := ⟨80, 43, 60, 30, 2, 32, 36⟩

def root : Dinode := ⟨T_DIR, 0, 0, 1, 16, fun i => if i.val = 0 then 37 else 0⟩

def disk : Disk := fun b =>
  if b = 32 then root.encode Bytes.zero 64
  else if b = 37 then Bytes.write Bytes.zero 0 16 fun i => (Dirent.make [0x61] 2).bytes.getD i 0
  else Bytes.zero

def sys (k : Nat) : Sys where
  disk := disk
  lh := []
  outstanding := 1
  itable e := ⟨e.val + 2, if e.val < k then 1 else 0, false, true, ⟨T_DIR, 0, 0, 1, 0, fun _ => 0⟩⟩
  ftable _ := ⟨.none, 0, false, false, 0, 0, 0, 0⟩
  proc _ := ⟨fun _ => none, some 0⟩
  pipe _ := none
  ghost := ⟨[], true, [], fun _ => 0, fun _ _ => 0⟩

def proc : Fin NPROC := ⟨0, zero_lt_NPROC⟩

theorem ref_pos {k : Nat} {e : Fin NINODE} (h : 0 < ((sys k).itable e).ref) : e.val < k := by
  by_contra hk
  rw [show ((sys k).itable e).ref = if e.val < k then 1 else 0 from rfl, if_neg hk] at h
  exact absurd h (by decide)

theorem wellFormed {k : Nat} (hk : k ≤ 50)
    (hsize : ∀ i < 60, (inodeOf sb (sys k) i).size.toNat = if i = 1 then 16 else 0)
    (htype : ∀ i < 60, 1 ≤ i → i < k + 2 → (inodeOf sb (sys k) i).type ≠ 0 ∧ (inodeOf sb (sys k) i).nlink ≠ 0)
    (hblock : fileBlock disk (inodeOf sb (sys k) 1) 0 ≠ 0)
    (hdirents : ∀ de ∈ dirents disk (inodeOf sb (sys k) 1), de.inum.toNat < k + 2) : WellFormed sb (sys k) := by
  have hlive : ∀ i, 1 ≤ i → i < k + 2 → Live sb (sys k) i := fun i hi hik =>
    ⟨show i < 60 by omega, (htype i (by omega) hi hik).1, .inl (htype i (by omega) hi hik).2⟩
  refine ⟨fun e e' _ _ heq => ?_, fun e => ?_, fun _ => rfl, fun i hi bn hbn => ?_, fun i hi _ => ?_, fun i hi _ de hde hne => ?_,
    fun e he => hlive _ (Nat.le_add_left 1 _) (Nat.add_lt_add_right (ref_pos he) 2), hlive 1 (by omega) (by omega)⟩
  · exact Fin.ext (Nat.add_right_cancel heq)
  · rw [show ((sys k).itable e).ref = if e.val < k then 1 else 0 from rfl]
    split <;> decide
  · rw [hsize i hi] at hbn
    by_cases hi1 : i = 1
    · rw [if_pos hi1] at hbn
      obtain rfl : bn = 0 := by
        unfold BSIZE at hbn
        omega
      rw [hi1]
      exact hblock
    · rw [if_neg hi1] at hbn
      exact absurd hbn (Nat.not_lt_zero _)
  · rw [hsize i hi]
    split
    · exact ⟨1, rfl⟩
    · exact ⟨0, rfl⟩
  · by_cases hi1 : i = 1
    · rw [hi1] at hde
      refine hlive _ (Nat.one_le_iff_ne_zero.mpr fun h0 => hne ?_) (hdirents de hde)
      exact UInt16.toNat_inj.mp h0
    · unfold dirents at hde
      rw [hsize i hi, if_neg hi1] at hde
      exact absurd hde List.not_mem_nil

theorem one_used : WellFormed sb (sys 1) :=
  wellFormed (by decide) (by decide +kernel) (by decide +kernel) (by decide +kernel) (by decide +kernel)

theorem all_used : WellFormed sb (sys 50) :=
  wellFormed (by decide) (by decide +kernel) (by decide +kernel) (by decide +kernel) (by decide +kernel)

end Small

theorem path_resolution_small : ∃ r t, exec (namei Small.sb Small.proc [slash, slash, 0x61, slash]) (Small.sys 1) = .ok (r, t) ∧
    (r.map fun e => (t.itable e).inum) = some 2 := by
  have hfree : TwoFree (Small.sys 1) := ⟨1, 2, by decide, rfl, rfl⟩
  obtain ⟨r, t, hrun, hr, -⟩ := (path_resolution (p := Small.proc) Small.one_used hfree rfl (by decide) [slash, slash, 0x61, slash]).1
  have hresolve : resolve Small.sb (Small.sys 1) (startOf (Small.sys 1) 0 [slash, slash, 0x61, slash])
      (pieces [slash, slash, 0x61, slash]) = some 2 := by decide +kernel
  exact ⟨r, t, hrun, hr.trans hresolve⟩

/-- All entries of the inode table are in use, and the root is not among them: `iget` panics. -/
theorem full_table_panics : WellFormed Small.sb (Small.sys 50) ∧ ((Small.sys 50).proc Small.proc).cwd = some 0 ∧
    0 < ((Small.sys 50).itable 0).ref ∧
    resolve Small.sb (Small.sys 50) (startOf (Small.sys 50) 0 [slash]) (pieces [slash]) = some ROOTINO ∧
    exec (namei Small.sb Small.proc [slash]) (Small.sys 50) = .error (.panic "iget: no inodes") := by
  refine ⟨Small.all_used, rfl, by decide, by decide +kernel, exec_error ?_⟩
  decide +kernel

end Xv6.Fs
