import Xv6.Fs.Faults

/-! What reading files and looking up paths leaves alone. -/

namespace Xv6.Fs
open Lib

section
variable {sb : Superblock} {R : Frame Sys} {e : Fin NINODE} (hlog : ∀ b x, Stable R (fun _ => True) (logWrite sb b x))
  (hinode : ∀ e f, Stable R (fun _ => True) (onInode e f)) (hghost : ∀ f, Stable R (fun _ => True) (onGhost f))

include hlog hinode

theorem stable_readi (dst : Sink) (off n : Nat) : Stable R (fun _ => True) (readi sb e dst off n) := by
  have hloop : ∀ n rounds tot off acc, Stable R (fun _ => True) (readiLoop sb e dst n rounds tot off acc) := by
    intro n rounds
    induction rounds with
    | zero => exact fun _ _ _ => .pure _
    | succ rounds ih =>
      refine fun tot off acc => .ite (fun _ => ?_) fun _ => .pure _
      refine .bind (stable_bmap hlog (fun _ _ => hinode _ _) _) fun addr => .ite (fun _ => .pure _) fun _ => ?_
      exact .bind (.view _) fun x => .ite (fun _ => ih _ _ _) fun _ => .pure _
  unfold readi
  exact .bind (.view _) fun x => .ite (fun _ => .pure _) fun _ => hloop _ _ _ _ _

theorem stable_itrunc : Stable R (fun _ => True) (itrunc sb e) := by
  have hbfree : ∀ b, Stable R (fun _ => True) (bfree sb b) := fun b => by
    unfold bfree
    exact .bind (.view _) fun x => .bind (.stopIf trivial) fun _ => hlog _ _
  have hdirect : ∀ i, Stable R (fun _ => True) (truncDirect sb e i) := fun i => by
    unfold truncDirect
    exact .bind (.view _) fun x => .doIf (.bind (hbfree _) fun _ => hinode _ _)
  have hentry : ∀ addr j, Stable R (fun _ => True) (truncEntry sb addr j) := fun addr j => by
    unfold truncEntry
    exact .bind (.view _) fun x => .doIf (hbfree _)
  unfold itrunc iupdate
  refine .bind (.loop hdirect) fun _ => .bind (.view _) fun x => .bind (.doIf ?_) fun _ => ?_
  · exact .bind (.loop (hentry _)) fun _ => .bind (hbfree _) fun _ => hinode _ _
  · exact .bind (hinode _ _) fun _ => .bind (.view _) fun x => .bind (.view _) fun b => hlog _ _

omit hlog in
theorem stable_iget (inum : Nat) : Stable R (fun _ => True) (iget inum) := by
  unfold iget
  refine .bind (.view _) fun r => ?_
  split
  · exact .bind (hinode _ _) fun _ => .pure _
  · refine .bind (.view _) fun r => ?_
    split
    · exact .bind (hinode _ _) fun _ => .pure _
    · exact .halt trivial

omit hlog in
theorem stable_ilock : Stable R (fun _ => True) (ilock sb e) := by
  unfold ilock
  refine .bind (.view _) fun x => .bind (.stopIf trivial) fun _ => .bind (.stopIf trivial) fun _ => ?_
  refine .bind (hinode _ _) fun _ => .doIf (.bind (.view _) fun d => ?_)
  exact .bind (hinode _ _) fun _ => .stopIf trivial

include hghost

omit hlog in
theorem stable_iunlock : Stable R (fun _ => True) (iunlock sb e) := by
  unfold iunlock
  exact .bind (.view _) fun x => .bind (.stopIf trivial) fun _ => .bind (hghost _) fun _ => hinode _ _

theorem stable_iput : Stable R (fun _ => True) (iput sb e) := by
  unfold iput ifree iupdate
  refine .bind (.view _) fun x => .bind (.doIf ?_) fun _ => hinode _ _
  refine .bind (.view _) fun x => .bind (.stopIf trivial) fun _ => .bind (hinode _ _) fun _ => .bind (hghost _) fun _ => ?_
  refine .bind (stable_itrunc hlog hinode) fun _ => .bind (hinode _ _) fun _ => .bind ?_ fun _ => hinode _ _
  exact .bind (.view _) fun x => .bind (.view _) fun b => hlog _ _

theorem stable_iunlockput : Stable R (fun _ => True) (iunlockput sb e) :=
  .bind (stable_iunlock hinode hghost) fun _ => stable_iput hlog hinode hghost

omit hghost in
theorem stable_dirlookup (name : List UInt8) : Stable R (fun _ => True) (dirlookup sb e name) := by
  unfold dirlookup readDirent
  refine .bind (.view _) fun x => .bind (.stopIf trivial) fun _ => .forUp trivial fun off => ?_
  refine .bind (.bind (stable_readi hlog hinode _ _ _) fun r => .bind (.stopIf trivial) fun _ => .pure _) fun de => ?_
  refine .ite (fun _ => .pure _) fun _ => .ite (fun _ => ?_) fun _ => .pure _
  exact .bind (stable_iget hinode _) fun ip => .pure _

theorem stable_namei (p : Fin NPROC) (path : Path) : Stable R (fun _ => True) (namei sb p path) := by
  have hloop : ∀ (names : List (List UInt8)) ip, Stable R (fun _ => True) (namexLoop sb ip names) := by
    intro names
    induction names with
    | nil => exact fun _ => .pure _
    | cons name rest ih =>
      refine fun ip => .bind (stable_ilock hinode) fun _ => .bind (.view _) fun x => .ite (fun _ => ?_) fun _ => ?_
      · exact .bind (stable_iunlockput hlog hinode hghost) fun _ => .pure _
      · refine .bind (stable_dirlookup hlog hinode name) fun r => ?_
        split
        · exact .bind (stable_iunlockput hlog hinode hghost) fun _ => .pure _
        · exact .bind (stable_iunlockput hlog hinode hghost) fun _ => ih _
  unfold namei namexStart
  refine .bind (.ite (fun _ => stable_iget hinode _) fun _ => .bind (.view _) fun r => ?_) fun ip => hloop _ ip
  split
  · exact .bind (hinode _ _) fun _ => .pure _
  · exact .halt trivial

end

def opened : Frame Sys := .of Sys.outstanding

section
variable {sb : Superblock}

theorem opened_logWrite (b : Nat) (x : Block) : Stable opened (fun _ => True) (logWrite sb b x) := by
  unfold logWrite
  refine .bind (.view _) fun n => .bind (.stopIf trivial) fun _ => ?_
  exact .bind (.view _) fun n => .bind (.stopIf trivial) fun _ => .change fun _ => rfl

theorem opened_onInode (e : Fin NINODE) (f : Inode → Inode) : Stable opened (fun _ => True) (onInode e f) := .change fun _ => rfl

theorem opened_onGhost (f : Sys → Ghost) : Stable opened (fun _ => True) (onGhost f) := .change fun _ => rfl

end

end Xv6.Fs
