import Xv6.Fs.Sysfile
import Xv6.Lib.Stable
import Xv6.Lib.Sum

/-! Reference counts of files, inodes and pipes, with those that a call holds while it runs. -/

namespace Xv6.Fs
open Lib

/-! ### What reading and writing leave alone -/

def Sys.shape (s : Sys) : (Fin NINODE → Nat × Int × Bool) × (Fin NFILE → File) × (Fin NPROC → Proc) × (Nat → Option Pipe) :=
  (fun e => ((s.itable e).inum, (s.itable e).ref, (s.itable e).locked), s.ftable, s.proc, s.pipe)

def still : Frame Sys := Frame.of Sys.shape

def Fine (e : Stop) : Prop :=
  e ≠ .panic "filedup" ∧ e ≠ .panic "fileclose" ∧ e ≠ .panic "ilock" ∧ e ≠ .panic "iunlock" ∧ e ≠ .fault

instance : DecidablePred Fine := fun _ => inferInstanceAs (Decidable (_ ∧ _))

section Still
variable {sb : Superblock} {e : Fin NINODE}

theorem still_onInode {f : Inode → Inode} (h : ∀ x, ((f x).inum, (f x).ref, (f x).locked) = (x.inum, x.ref, x.locked)) :
    Stable still Fine (onInode e f) := by
  refine .change fun s => ?_
  simp only [still, Frame.of, Sys.shape, Sys.setInode, Prod.mk.injEq, and_true]
  funext e'
  rw [Function.update_apply]
  split
  · rename_i he
    rw [he, h]
  · rfl

theorem still_logWrite (b : Nat) (x : Block) : Stable still Fine (logWrite sb b x) := by
  unfold logWrite
  refine .bind (.view _) fun n => .bind (.stopIf (by decide)) fun _ => ?_
  refine .bind (.view _) fun n => .bind (.stopIf (by decide)) fun _ => ?_
  exact .change fun s => rfl

theorem still_balloc : Stable still Fine (balloc sb) := by
  unfold balloc
  refine .bind (.forUp (by decide) fun b => .bind (.view _) fun x => ?_) fun r => .pure _
  split
  · exact .bind (still_logWrite _ _) fun _ => .bind (still_logWrite _ _) fun _ => .pure _
  · exact .pure _

theorem still_bfree (b : Nat) : Stable still Fine (bfree sb b) := by
  unfold bfree
  exact .bind (.view _) fun x => .bind (.stopIf (by decide)) fun _ => still_logWrite _ _

theorem still_iupdate : Stable still Fine (iupdate sb e) := by
  unfold iupdate
  exact .bind (.view _) fun x => .bind (.view _) fun b => still_logWrite _ _

theorem still_beginOp : Stable still Fine beginOp := by
  unfold beginOp
  exact .bind (.view _) fun n => .bind (.stopIf (by decide)) fun _ => .change fun s => rfl

theorem still_endOp : Stable still Fine endOp := by
  unfold endOp
  exact .bind (.change fun s => rfl) fun _ => .bind (.view _) fun n => .doIf (.change fun s => rfl)

theorem still_onGhost (f : Sys → Ghost) : Stable still Fine (onGhost f) := .change fun _ => rfl

theorem still_itrunc : Stable still Fine (itrunc sb e) := by
  have hdirect : ∀ i, Stable still Fine (truncDirect sb e i) := fun i => by
    unfold truncDirect
    exact .bind (.view _) fun x => .doIf (.bind (still_bfree _) fun _ => still_onInode fun _ => rfl)
  have hentry : ∀ addr j, Stable still Fine (truncEntry sb addr j) := fun addr j => by
    unfold truncEntry
    exact .bind (.view _) fun x => .doIf (still_bfree _)
  unfold itrunc
  refine .bind (.loop hdirect) fun _ => .bind (.view _) fun x => .bind (.doIf ?_) fun _ => ?_
  · exact .bind (.loop (hentry _)) fun _ => .bind (still_bfree _) fun _ => still_onInode fun _ => rfl
  · exact .bind (still_onInode fun _ => rfl) fun _ => still_iupdate

theorem still_bmap (bn : Nat) : Stable still Fine (bmap sb e bn) := by
  have haddr : ∀ i, Stable still Fine (addrOrAlloc sb e i) := fun i => by
    unfold addrOrAlloc
    refine .bind (.view _) fun x => .ite (fun _ => .pure _) fun _ => ?_
    exact .bind still_balloc fun a => .bind (.doIf (still_onInode fun _ => rfl)) fun _ => .pure _
  unfold bmap
  refine .ite (fun _ => haddr bn) fun _ => .ite (fun _ => ?_) fun _ => .halt (by decide)
  refine .bind (haddr _) fun addr => .ite (fun _ => .pure _) fun _ => ?_
  refine .bind (.view _) fun x => .ite (fun _ => .pure _) fun _ => ?_
  refine .bind still_balloc fun a => .bind (.doIf ?_) fun _ => .pure _
  exact .bind (.view _) fun x => still_logWrite _ _

theorem still_readiLoop (dst : Sink) (n rounds tot off : Nat) (acc : List UInt8) :
    Stable still Fine (readiLoop sb e dst n rounds tot off acc) := by
  induction rounds generalizing tot off acc with
  | zero => exact .pure _
  | succ rounds ih =>
    refine .ite (fun _ => ?_) fun _ => .pure _
    refine .bind (still_bmap _) fun addr => .ite (fun _ => .pure _) fun _ => ?_
    exact .bind (.view _) fun x => .ite (fun _ => ih _ _ _) fun _ => .pure _

theorem still_readi (dst : Sink) (off n : Nat) : Stable still Fine (readi sb e dst off n) := by
  unfold readi
  exact .bind (.view _) fun x => .ite (fun _ => .pure _) fun _ => still_readiLoop _ _ _ _ _ _

theorem still_writeiLoop (src : Source) (n rounds tot off : Nat) :
    Stable still Fine (writeiLoop sb e src n rounds tot off) := by
  induction rounds generalizing tot off with
  | zero => exact .pure _
  | succ rounds ih =>
    refine .ite (fun _ => ?_) fun _ => .pure _
    refine .bind (still_bmap _) fun addr => .ite (fun _ => .pure _) fun _ => ?_
    refine .bind (.view _) fun x => .ite (fun _ => ?_) fun _ => ?_
    · exact .bind (still_logWrite _ _) fun _ => ih _ _
    · exact .bind (.change fun s => rfl) fun _ => .pure _

theorem still_writei (src : Source) (off n : Nat) : Stable still Fine (writei sb e src off n) := by
  unfold writei
  refine .bind (.view _) fun x => .ite (fun _ => .pure _) fun _ => .ite (fun _ => .pure _) fun _ => ?_
  refine .bind (still_writeiLoop _ _ _ _ _) fun r => .bind (.view _) fun y => ?_
  exact .bind (.doIf (still_onInode fun _ => rfl)) fun _ => .bind still_iupdate fun _ => .pure _

theorem still_readDirent (off : Nat) (msg : String) (h : Fine (.panic msg)) :
    Stable still Fine (readDirent sb e off msg) := by
  unfold readDirent
  exact .bind (still_readi _ _ _) fun r => .bind (.stopIf h) fun _ => .pure _

theorem still_emptySlot : Stable still Fine (emptySlot sb e) := by
  unfold emptySlot
  refine .bind (.view _) fun x => .bind (.forUp (by decide) fun off => ?_) fun r => .pure _
  exact .bind (still_readDirent _ _ (by decide)) fun de => .ite (fun _ => .pure _) fun _ => .pure _

theorem still_isdirempty : Stable still Fine (isdirempty sb e) := by
  unfold isdirempty
  refine .bind (.view _) fun x => .bind (.forUp (by decide) fun off => ?_) fun r => .pure _
  exact .bind (still_readDirent _ _ (by decide)) fun de => .ite (fun _ => .pure _) fun _ => .pure _

theorem still_setNlink (g : Int16 → Int16) : Stable still Fine (setNlink sb e g) := by
  unfold setNlink
  exact .bind (still_onInode fun _ => rfl) fun _ => still_iupdate

theorem still_execReads (reads : List (Nat × Nat)) : Stable still Fine (execReads sb e reads) := by
  induction reads with
  | nil => exact .pure _
  | cons r reads ih => exact .bind (still_readi _ _ _) fun r => .doIf ih

end Still

def files : Frame Sys := Frame.of fun s => (s.ftable, s.proc, s.pipe)

section Files
variable {sb : Superblock} {e : Fin NINODE}

theorem files_of_still {α : Type} {m : M α} (h : Stable still Fine m) : Stable files (fun _ => True) m :=
  h.mono (fun _ _ hst => congrArg Prod.snd hst) fun _ _ => trivial

theorem files_onInode {f : Inode → Inode} : Stable files (fun _ => True) (onInode e f) := .change fun _ => rfl

theorem files_iget (inum : Nat) : Stable files (fun _ => True) (iget inum) := by
  unfold iget
  refine .bind (.view _) fun r => ?_
  split
  · exact .bind files_onInode fun _ => .pure _
  · refine .bind (.view _) fun r => ?_
    split
    · exact .bind files_onInode fun _ => .pure _
    · exact .halt trivial

theorem files_ilock : Stable files (fun _ => True) (ilock sb e) := by
  unfold ilock
  refine .bind (.view _) fun x => .bind (.stopIf trivial) fun _ => .bind (.stopIf trivial) fun _ => ?_
  refine .bind files_onInode fun _ => .doIf (.bind (.view _) fun d => ?_)
  exact .bind files_onInode fun _ => .stopIf trivial

theorem files_iunlock : Stable files (fun _ => True) (iunlock sb e) := by
  unfold iunlock
  exact .bind (.view _) fun x => .bind (.stopIf trivial) fun _ => .bind (.change fun _ => rfl) fun _ => files_onInode

theorem files_iput : Stable files (fun _ => True) (iput sb e) := by
  unfold iput ifree
  refine .bind (.view _) fun x => .bind (.doIf ?_) fun _ => files_onInode
  refine .bind (.view _) fun x => .bind (.stopIf trivial) fun _ => .bind files_onInode fun _ => ?_
  refine .bind (.change fun _ => rfl) fun _ => .bind (files_of_still still_itrunc) fun _ => ?_
  exact .bind files_onInode fun _ => .bind (files_of_still still_iupdate) fun _ => files_onInode

theorem files_iunlockput : Stable files (fun _ => True) (iunlockput sb e) := by
  unfold iunlockput
  exact .bind files_iunlock fun _ => files_iput

theorem files_dirlookup (name : List UInt8) : Stable files (fun _ => True) (dirlookup sb e name) := by
  unfold dirlookup
  refine .bind (.view _) fun x => .bind (.stopIf trivial) fun _ => .forUp trivial fun off => ?_
  refine .bind (files_of_still (still_readDirent _ _ (by decide))) fun de => .ite (fun _ => .pure _) fun _ => ?_
  exact .ite (fun _ => .bind (files_iget _) fun _ => .pure _) fun _ => .pure _

theorem files_namexLoop (names : List (List UInt8)) : Stable files (fun _ => True) (namexLoop sb e names) := by
  induction names generalizing e with
  | nil => exact .pure _
  | cons name rest ih =>
    refine .bind files_ilock fun _ => .bind (.view _) fun x => .ite (fun _ => ?_) fun _ => ?_
    · exact .bind files_iunlockput fun _ => .pure _
    · refine .bind (files_dirlookup _) fun r => ?_
      cases r with
      | none => exact .bind files_iunlockput fun _ => .pure _
      | some r => exact .bind files_iunlockput fun _ => ih

theorem files_namexStart (p : Fin NPROC) (path : Path) : Stable files (fun _ => True) (namexStart p path) := by
  unfold namexStart
  refine .ite (fun _ => files_iget _) fun _ => .bind (.view _) fun r => ?_
  cases r with
  | some e => exact .bind files_onInode fun _ => .pure _
  | none => exact .halt trivial

theorem files_namei (p : Fin NPROC) (path : Path) : Stable files (fun _ => True) (namei sb p path) :=
  .bind (files_namexStart _ _) fun _ => files_namexLoop _

end Files

/-! ### Counting -/

def File.opens (f : File) (e : Fin NINODE) : Int := if (f.type = .inode ∨ f.type = .device) ∧ f.ip = e then 1 else 0

def File.isEnd (f : File) (pi : Nat) (w : Bool) : Int := if f.type = .pipe ∧ f.pipe = pi ∧ f.writable = w then 1 else 0

def Proc.isIn (x : Proc) (e : Fin NINODE) : Int := if x.cwd = some e then 1 else 0

def Proc.holds (x : Proc) (i : Fin NFILE) : Int := ∑ fd, if x.ofile fd = some i then 1 else 0

def Pipe.isOpen (x : Pipe) (w : Bool) : Bool := if w then x.writeopen else x.readopen

namespace Sys

def openCount (s : Sys) (e : Fin NINODE) : Int := ∑ i, (s.ftable i).opens e

def cwdCount (s : Sys) (e : Fin NINODE) : Int := ∑ p, (s.proc p).isIn e

def fdCount (s : Sys) (i : Fin NFILE) : Int := ∑ p, (s.proc p).holds i

def endCount (s : Sys) (pi : Nat) (w : Bool) : Int := ∑ i, (s.ftable i).isEnd pi w

end Sys

/-- The counts are exact, where the running call holds `h` and `g` references and has the inodes in `L` locked. -/
structure Refs (h : Fin NINODE → Int) (g : Fin NFILE → Int) (L : Fin NINODE → Bool) (s : Sys) : Prop where
  ino : ∀ e, (s.itable e).ref = s.openCount e + s.cwdCount e + h e
  fil : ∀ i, (s.ftable i).ref = s.fdCount i + g i
  dead : ∀ i, (s.ftable i).ref = 0 → (s.ftable i).type = .none
  pip : ∀ pi w, s.endCount pi w = if (s.pipe pi).any (·.isOpen w) then 1 else 0
  kept : ∀ pi x, s.pipe pi = some x → x.readopen = true ∨ x.writeopen = true
  lock : ∀ e, (s.itable e).locked = L e

def bump {α : Type} [DecidableEq α] (h : α → Int) (a : α) (k : Int) : α → Int := fun x => if x = a then h x + k else h x

def lockd (L : Fin NINODE → Bool) (e : Fin NINODE) : Fin NINODE → Bool := Function.update L e true

section Bump
variable {α : Type} [DecidableEq α] {h : α → Int} {a b : α} {j k : Int}

theorem bump_comm : bump (bump h a j) b k = bump (bump h b k) a j := by
  funext x
  unfold bump
  split <;> split <;> omega

theorem bump_bump : bump (bump h a j) a k = bump h a (j + k) := by
  funext x
  unfold bump
  split <;> omega

@[simp] theorem bump_zero : bump h a 0 = h := by
  funext x
  unfold bump
  split <;> omega

theorem bump_cancel (hjk : j + k = 0) : bump (bump h a j) a k = h := by
  rw [bump_bump, hjk, bump_zero]

theorem bump_self : bump h a k a = h a + k := if_pos rfl

end Bump

section
variable {h : Fin NINODE → Int} {g : Fin NFILE → Int} {L : Fin NINODE → Bool} {s t : Sys} {e : Fin NINODE}
  {i : Fin NFILE}

theorem openCount_nonneg : 0 ≤ s.openCount e := Finset.sum_nonneg fun i _ => by unfold File.opens; split <;> omega

theorem cwdCount_nonneg : 0 ≤ s.cwdCount e := Finset.sum_nonneg fun p _ => by unfold Proc.isIn; split <;> omega

theorem holds_nonneg (x : Proc) : 0 ≤ x.holds i := Finset.sum_nonneg fun fd _ => by split <;> omega

theorem fdCount_nonneg : 0 ≤ s.fdCount i := Finset.sum_nonneg fun _ _ => holds_nonneg _

namespace Refs

theorem pos (H : Refs h g L s) (he : 0 < h e) : 1 ≤ (s.itable e).ref := by
  have := H.ino e
  have := openCount_nonneg (s := s) (e := e)
  have := cwdCount_nonneg (s := s) (e := e)
  omega

theorem of_still (H : Refs h g L s) (hst : still.rel s t) : Refs h g L t := by
  obtain ⟨hi, hf, hp, hpi⟩ : t.shape.1 = s.shape.1 ∧ t.ftable = s.ftable ∧ t.proc = s.proc ∧ t.pipe = s.pipe := by
    simpa only [still, Frame.of, Sys.shape, Prod.mk.injEq] using hst
  have hit : ∀ e, (t.itable e).ref = (s.itable e).ref ∧ (t.itable e).locked = (s.itable e).locked := fun e => by
    have := congrFun hi e
    simp only [Sys.shape, Prod.mk.injEq] at this
    exact this.2
  obtain ⟨ino, fil, dead, pip, kept, lock⟩ := H
  refine ⟨fun e => ?_, fun i => ?_, fun i => ?_, fun pi w => ?_, fun pi x => ?_, fun e => ?_⟩
  · rw [(hit e).1, ino e]; unfold Sys.openCount Sys.cwdCount; rw [hf, hp]
  · rw [hf, fil i]; unfold Sys.fdCount; rw [hp]
  · rw [hf]; exact dead i
  · rw [hpi, ← pip pi w]; unfold Sys.endCount; rw [hf]
  · rw [hpi]; exact kept pi x
  · rw [(hit e).2, lock e]

theorem seq {α β : Type} {m : M α} {f : α → M β} {Q : β → Sys → Prop} (H : Refs h g L s) (hm : Stable still Fine m)
    (hf : ∀ a t, Refs h g L t → wp (f a) Q (fun e _ => Fine e) t) : wp (m >>= f) Q (fun e _ => Fine e) s :=
  wp_bind.mpr (hm.wp (fun a t ht => hf a t (H.of_still ht)) fun _ _ he => he)

theorem setInode {x : Inode} {k : Int} (H : Refs h g L s) (hr : x.ref = (s.itable e).ref + k) :
    Refs (bump h e k) g (Function.update L e x.locked) (s.setInode e x) where
  ino e' := by
    have hold := H.ino e'
    change _ = s.openCount e' + s.cwdCount e' + _
    rw [setInode_itable]
    unfold bump
    by_cases he : e' = e
    · subst he
      rw [if_pos rfl, if_pos rfl]
      omega
    · rw [if_neg he, if_neg he]
      exact hold
  fil := H.fil
  dead := H.dead
  pip := H.pip
  kept := H.kept
  lock e' := by
    rw [setInode_itable, Function.update_apply]
    split
    · rfl
    · exact H.lock e'

theorem setRef {x : Inode} {k : Int} (H : Refs h g L s) (hr : x.ref = (s.itable e).ref + k)
    (hl : x.locked = (s.itable e).locked) : Refs (bump h e k) g L (s.setInode e x) := by
  have := H.setInode hr
  rwa [hl, H.lock e, Function.update_eq_self] at this

theorem setLock {x : Inode} (H : Refs h g L s) (hr : x.ref = (s.itable e).ref) :
    Refs h g (Function.update L e x.locked) (s.setInode e x) := by
  have := H.setInode (x := x) (e := e) (k := 0) (by omega)
  rwa [bump_zero] at this

end Refs

def got (h : Fin NINODE → Int) : Option (Fin NINODE) → Fin NINODE → Int
  | none => h
  | some e => bump h e 1

variable {sb : Superblock}

theorem Refs.iget (H : Refs h g L s) (inum : Nat) :
    wp (Fs.iget inum) (fun e t => Refs (bump h e 1) g L t) (fun e _ => Fine e) s := by
  unfold Fs.iget
  rw [wp_bind, wp_view]
  split
  · rw [wp_bind]
    exact H.setRef rfl rfl
  · rw [wp_bind, wp_view]
    split
    · rename_i e hv
      rw [wp_bind]
      have hz : (s.itable e).ref = 0 := by simpa using List.find?_some hv
      exact H.setRef (by rw [hz]; rfl) rfl
    · exact wp_halt.mpr (by decide)

theorem Refs.idup (H : Refs h g L s) : wp (Fs.idup e) (fun _ t => Refs (bump h e 1) g L t) (fun e _ => Fine e) s :=
  H.setRef rfl rfl

theorem Refs.onRef {f : Inode → Inode} {k : Int} (H : Refs h g L s)
    (hf : ∀ x, (f x).ref = x.ref + k ∧ (f x).locked = x.locked) :
    wp (onInode e f) (fun _ t => Refs (bump h e k) g L t) (fun e _ => Fine e) s :=
  H.setRef (hf _).1 (hf _).2

theorem Refs.onLock {f : Inode → Inode} (b : Bool) (H : Refs h g L s)
    (hf : ∀ x, (f x).ref = x.ref ∧ (f x).locked = b) :
    wp (onInode e f) (fun _ t => Refs h g (Function.update L e b) t) (fun e _ => Fine e) s := by
  have := H.setLock (hf (s.itable e)).1
  rw [(hf _).2] at this
  exact this

theorem Refs.ilock (H : Refs h g L s) (hpos : 1 ≤ (s.itable e).ref) :
    wp (Fs.ilock sb e) (fun _ t => L e = false ∧ Refs h g (lockd L e) t) (fun e _ => Fine e) s := by
  unfold Fs.ilock
  simp only [wp_bind, wp_view, wp_stopIf]
  refine ⟨fun hlt => absurd hlt (by omega), fun _ => ⟨fun _ => by decide, fun hl => ?_⟩⟩
  have hl' : L e = false := by rw [← H.lock e]; simpa using hl
  refine wp_post (H.onLock true fun _ => ⟨rfl, rfl⟩) fun _ t H1 => ?_
  have hload : Stable still Fine (doIf ((s.itable e).valid = false) do
      let d ← view fun s' => dinode sb s'.disk (s.itable e).inum
      onInode e fun x => (x.setD d).setValid true
      stopIf (d.type = 0) (.panic "ilock: no type")) :=
    .doIf (.bind (.view _) fun d => .bind (still_onInode fun _ => rfl) fun _ => .stopIf (by decide))
  exact hload.wp (fun _ u hu => ⟨hl', H1.of_still hu⟩) fun _ _ he => he

theorem Refs.iunlock (H : Refs h g (lockd L e) s) (hL : L e = false) (hpos : 1 ≤ (s.itable e).ref) :
    wp (Fs.iunlock sb e) (fun _ t => Refs h g L t) (fun e _ => Fine e) s := by
  unfold Fs.iunlock
  simp only [wp_bind, wp_view, wp_stopIf]
  have hl : (s.itable e).locked = true := by rw [H.lock e]; exact Function.update_self ..
  refine ⟨fun hc => ?_, fun _ => ?_⟩
  · rw [hl] at hc
    rcases hc with hc | hc
    · cases hc
    · omega
  · refine (still_onGhost _).wp (fun _ t ht => ?_) fun _ _ he => he
    refine wp_post ((H.of_still ht).onLock false fun _ => ⟨rfl, rfl⟩) fun _ u H1 => ?_
    rwa [lockd, Function.update_idem, ← hL, Function.update_eq_self] at H1

theorem Refs.ifree (H : Refs h g L s) : wp (Fs.ifree sb e) (fun _ t => Refs h g L t) (fun e _ => Fine e) s := by
  unfold Fs.ifree
  simp only [wp_bind, wp_view, wp_stopIf]
  refine ⟨fun _ => by decide, fun hl => ?_⟩
  have hL : L e = false := by rw [← H.lock e]; simpa using hl
  refine wp_post (H.onLock true fun _ => ⟨rfl, rfl⟩) fun _ t H1 => ?_
  simp only [← wp_bind]
  refine H1.seq (still_onGhost _) fun _ t H2 => H2.seq still_itrunc fun _ t H3 => ?_
  refine H3.seq (still_onInode fun _ => rfl) fun _ t H4 => H4.seq still_iupdate fun _ t H5 => ?_
  refine wp_post (H5.onLock false fun _ => ⟨rfl, rfl⟩) fun _ u H6 => ?_
  rwa [Function.update_idem, ← hL, Function.update_eq_self] at H6

theorem Refs.iput (H : Refs (bump h e 1) g L s) : wp (Fs.iput sb e) (fun _ t => Refs h g L t) (fun e _ => Fine e) s := by
  have hdrop : ∀ t, Refs (bump h e 1) g L t →
      wp (onInode e fun x => x.setRef (x.ref - 1)) (fun _ u => Refs h g L u) (fun e _ => Fine e) t := fun t Ht => by
    have := Ht.onRef (e := e) (f := fun x => x.setRef (x.ref - 1)) (k := -1) fun _ => ⟨rfl, rfl⟩
    rwa [bump_cancel (by omega)] at this
  unfold Fs.iput
  rw [wp_bind, wp_view, wp_bind, wp_doIf]
  exact ⟨fun _ => wp_mono H.ifree (fun _ t Ht => hdrop t Ht) fun _ _ he => he, fun _ => hdrop s H⟩

theorem Refs.iunlockput (H : Refs (bump h e 1) g (lockd L e) s) (hL : L e = false) (hh : 0 ≤ h e) :
    wp (Fs.iunlockput sb e) (fun _ t => Refs h g L t) (fun e _ => Fine e) s := by
  unfold Fs.iunlockput
  exact wp_then (H.iunlock hL (H.pos (by rw [bump_self]; omega))) fun _ t Ht => Ht.iput

theorem Refs.dirlookup (H : Refs h g L s) (name : List UInt8) :
    wp (Fs.dirlookup sb e name) (fun r t => Refs (got h (r.map (·.1))) g L t) (fun e _ => Fine e) s := by
  unfold Fs.dirlookup
  simp only [wp_bind, wp_view, wp_stopIf]
  refine ⟨fun _ => by decide, fun _ => wp_forUp_any (I := Refs h g L) H (fun _ _ => by decide) ?_ fun t Ht => Ht⟩
  intro off t Ht
  refine Ht.seq (still_readDirent _ _ (by decide)) fun de u Hu => ?_
  split
  · exact Hu
  · split
    · rw [wp_bind]
      exact Hu.iget _
    · exact Hu

theorem Refs.dirlink (H : Refs h g L s) (name : List UInt8) (inum : Nat) :
    wp (Fs.dirlink sb e name inum) (fun _ t => Refs h g L t) (fun e _ => Fine e) s := by
  unfold Fs.dirlink
  refine wp_then (H.dirlookup name) fun r t Ht => ?_
  cases r with
  | some r =>
    rw [wp_bind]
    exact Ht.iput
  | none =>
    refine Refs.seq Ht still_emptySlot fun off t H1 => H1.seq (still_writei _ _ _) fun r t H2 => ?_
    split
    · exact H2
    · exact H2.seq (still_onGhost _) fun _ _ H3 => H3

theorem Refs.ialloc (H : Refs h g L s) (type : Int16) :
    wp (Fs.ialloc sb type) (fun r t => Refs (got h r) g L t) (fun e _ => Fine e) s := by
  unfold Fs.ialloc
  refine wp_forUp_any (I := Refs h g L) H (fun _ _ => by decide) ?_ fun t Ht => Ht
  intro inum t Ht
  rw [wp_bind, wp_view]
  split
  · rw [wp_bind, wp_view]
    refine Ht.seq (still_logWrite _ _) fun _ t H1 => H1.seq (still_onGhost _) fun _ t H2 => ?_
    rw [wp_bind]
    exact H2.iget _
  · exact Ht

theorem Refs.namexLoop (hh : ∀ e, 0 ≤ h e) (H : Refs (bump h e 1) g L s) (names : List (List UInt8)) :
    wp (Fs.namexLoop sb e names) (fun r t => Refs (got h r) g L t) (fun e _ => Fine e) s := by
  induction names generalizing e s with
  | nil => exact H
  | cons name rest ih =>
    have hpos : 1 ≤ (s.itable e).ref := H.pos (by rw [bump_self]; have := hh e; omega)
    unfold Fs.namexLoop
    refine wp_then (H.ilock hpos) fun _ t ⟨hL, H1⟩ => ?_
    rw [wp_bind, wp_view]
    split
    · rw [wp_bind]
      exact H1.iunlockput hL (hh e)
    · refine wp_then (H1.dirlookup name) fun r t H2 => ?_
      cases r with
      | none =>
        rw [wp_bind]
        exact Refs.iunlockput H2 hL (hh e)
      | some r =>
        obtain ⟨next, off⟩ := r
        rw [wp_bind]
        change Refs (bump (bump h e 1) next 1) g (lockd L e) t at H2
        rw [bump_comm] at H2
        refine wp_post (H2.iunlockput hL ?_) fun _ t H3 => ih H3
        unfold bump
        have := hh e
        split <;> omega

theorem Refs.namexParent (hh : ∀ e, 0 ≤ h e) (H : Refs (bump h e 1) g L s) (names : List (List UInt8)) :
    wp (Fs.namexParent sb e names) (fun r t => Refs (got h (r.map (·.1))) g L t) (fun e _ => Fine e) s := by
  induction names generalizing e s with
  | nil =>
    unfold Fs.namexParent
    rw [wp_bind]
    exact H.iput
  | cons name rest ih =>
    have hpos : 1 ≤ (s.itable e).ref := H.pos (by rw [bump_self]; have := hh e; omega)
    unfold Fs.namexParent
    refine wp_then (H.ilock hpos) fun _ t ⟨hL, H1⟩ => ?_
    rw [wp_bind, wp_view]
    split
    · rw [wp_bind]
      exact H1.iunlockput hL (hh e)
    · split
      · rw [wp_bind]
        exact H1.iunlock hL (H1.pos (by rw [bump_self]; have := hh e; omega))
      · refine wp_then (H1.dirlookup name) fun r t H2 => ?_
        cases r with
        | none =>
          rw [wp_bind]
          exact Refs.iunlockput H2 hL (hh e)
        | some r =>
          obtain ⟨next, off⟩ := r
          rw [wp_bind]
          change Refs (bump (bump h e 1) next 1) g (lockd L e) t at H2
          rw [bump_comm] at H2
          refine wp_post (H2.iunlockput hL ?_) fun _ t H3 => ih H3
          unfold bump
          have := hh e
          split <;> omega

theorem Refs.namexStart (H : Refs h g L s) {p : Fin NPROC} (hp : (s.proc p).cwd.isSome) (path : Path) :
    wp (Fs.namexStart p path) (fun e t => Refs (bump h e 1) g L t) (fun e _ => Fine e) s := by
  unfold Fs.namexStart
  split
  · exact H.iget _
  · rw [wp_bind, wp_view]
    obtain ⟨e, he⟩ := Option.isSome_iff_exists.mp hp
    rw [he, wp_bind]
    exact H.idup

theorem Refs.namei (hh : ∀ e, 0 ≤ h e) (H : Refs h g L s) {p : Fin NPROC} (hp : (s.proc p).cwd.isSome) (path : Path) :
    wp (Fs.namei sb p path) (fun r t => Refs (got h r) g L t) (fun e _ => Fine e) s := by
  unfold Fs.namei
  exact wp_then (H.namexStart hp path) fun e t Ht => Ht.namexLoop hh _

theorem Refs.nameiparent (hh : ∀ e, 0 ≤ h e) (H : Refs h g L s) {p : Fin NPROC} (hp : (s.proc p).cwd.isSome)
    (path : Path) :
    wp (Fs.nameiparent sb p path) (fun r t => Refs (got h (r.map (·.1))) g L t) (fun e _ => Fine e) s := by
  unfold Fs.nameiparent
  exact wp_then (H.namexStart hp path) fun e t Ht => Ht.namexParent hh _

end

end Xv6.Fs
