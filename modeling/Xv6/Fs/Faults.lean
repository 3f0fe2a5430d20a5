import Xv6.Fs.Bytes
import Xv6.Lib.Stable

/-! Writes from user memory that fault in the middle of a block: the buffer has changed, `log_write` is not called,
    and the change lasts until the buffer is evicted. -/

namespace Xv6.Fs
open Lib

/-- The blocks in `B` are evicted and read again from the device `dev`. The log keeps its own blocks in the cache. -/
def Sys.evict (s : Sys) (dev : Disk) (B : List Nat) : Sys :=
  { s with disk := fun b => if b ∈ B ∧ b ∉ s.lh then dev b else s.disk b }

def Sys.install (s : Sys) (dev : Disk) : Disk := fun b => if b ∈ s.lh then s.disk b else dev b

/-- A cached block that is not in the log is as it is on the device. -/
def Backed (dev : Disk) (s : Sys) : Prop := ∀ b, b ∉ s.lh → s.disk b = dev b

theorem Backed.evict {dev : Disk} {s : Sys} (h : Backed dev s) (B : List Nat) : s.evict dev B = s := by
  have hdisk : (fun b => if b ∈ B ∧ b ∉ s.lh then dev b else s.disk b) = s.disk := by
    funext b
    split
    · rename_i hb
      exact (h b hb.2).symm
    · rfl
  unfold Sys.evict
  rw [hdisk]

theorem Backed.commit {dev : Disk} {s : Sys} (h : Backed dev s) : Backed (s.install dev) s.commit := by
  intro b _
  unfold Sys.install
  split
  · rfl
  · rename_i hb
    exact h b hb

/-- Blocks leave the log only by a commit, and those outside it do not change. -/
def logged : Frame Sys where
  rel s t := (∀ b ∈ s.lh, b ∈ t.lh) ∧ ∀ b, b ∉ t.lh → t.disk b = s.disk b
  refl _ := ⟨fun _ hb => hb, fun _ _ => rfl⟩
  trans h h' := ⟨fun b hb => h'.1 b (h.1 b hb), fun b hb => (h'.2 b hb).trans (h.2 b fun hin => hb (h'.1 b hin))⟩

theorem Backed.logged {dev : Disk} {s t : Sys} (h : Backed dev s) (hl : logged.rel s t) : Backed dev t := fun b hb =>
  (hl.2 b hb).trans (h b fun hin => hb (hl.1 b hin))

section
variable {sb : Superblock} {e : Fin NINODE}

theorem logged_logWrite (b : Nat) (x : Block) : Stable logged (fun _ => True) (logWrite sb b x) := by
  unfold logWrite
  refine .bind (.view _) fun n => .bind (.stopIf trivial) fun _ => ?_
  refine .bind (.view _) fun n => .bind (.stopIf trivial) fun _ => .change fun s => ⟨fun c hc => ?_, fun c hc => ?_⟩
  · simp only
    split
    · exact hc
    · exact List.mem_append_left _ hc
  · refine Function.update_of_ne (fun hcb => hc ?_) ..
    simp only
    split
    · rw [hcb]
      assumption
    · rw [hcb]
      exact List.mem_append_right _ List.mem_cons_self

theorem stable_bmap {R : Frame Sys} (hlog : ∀ b x, Stable R (fun _ => True) (logWrite sb b x))
    (haddr : ∀ i a, Stable R (fun _ => True) (onInode e fun x => x.setD (x.d.setAddr i a))) (bn : Nat) :
    Stable R (fun _ => True) (bmap sb e bn) := by
  have hballoc : Stable R (fun _ => True) (balloc sb) := by
    unfold balloc
    refine .bind (.forUp trivial fun b => .bind (.view _) fun x => ?_) fun r => .pure _
    split
    · exact .bind (hlog _ _) fun _ => .bind (hlog _ _) fun _ => .pure _
    · exact .pure _
  have hslot : ∀ i, Stable R (fun _ => True) (addrOrAlloc sb e i) := fun i => by
    unfold addrOrAlloc
    refine .bind (.view _) fun x => .ite (fun _ => .pure _) fun _ => ?_
    exact .bind hballoc fun a => .bind (.doIf (haddr i a)) fun _ => .pure _
  unfold bmap
  refine .ite (fun _ => hslot bn) fun _ => .ite (fun _ => ?_) fun _ => .halt trivial
  refine .bind (hslot _) fun addr => .ite (fun _ => .pure _) fun _ => ?_
  refine .bind (.view _) fun x => .ite (fun _ => .pure _) fun _ => ?_
  refine .bind hballoc fun a => .bind (.doIf ?_) fun _ => .pure _
  exact .bind (.view _) fun x => hlog _ _

theorem stable_writei {R : Frame Sys} {src : Source} (hlog : ∀ b x, Stable R (fun _ => True) (logWrite sb b x))
    (hsize : ∀ a, Stable R (fun _ => True) (onInode e fun x => x.setD (x.d.setSize a))) {off n : Nat}
    (hloop : Stable R (fun _ => True) (writeiLoop sb e src n n 0 off)) :
    Stable R (fun _ => True) (writei sb e src off n) := by
  unfold writei
  refine .bind (.view _) fun x => .ite (fun _ => .pure _) fun _ => .ite (fun _ => .pure _) fun _ => ?_
  refine .bind hloop fun r => .bind (.view _) fun y => ?_
  refine .bind (.doIf (hsize _)) fun _ => .bind ?_ fun _ => .pure _
  unfold iupdate
  exact .bind (.view _) fun x => .bind (.view _) fun b => hlog _ _

theorem logged_onInode {f : Inode → Inode} : Stable logged (fun _ => True) (onInode e f) :=
  .change fun _ => ⟨fun _ hb => hb, fun _ _ => rfl⟩

theorem logged_bmap (bn : Nat) : Stable logged (fun _ => True) (bmap sb e bn) :=
  stable_bmap logged_logWrite (fun _ _ => logged_onInode) bn

theorem logged_writeiLoop {src : Source} (hwhole : src.Whole) (n rounds tot off : Nat) :
    Stable logged (fun _ => True) (writeiLoop sb e src n rounds tot off) := by
  induction rounds generalizing tot off with
  | zero => exact .pure _
  | succ rounds ih =>
    refine .ite (fun _ => ?_) fun _ => .pure _
    refine .bind (logged_bmap _) fun addr => .ite (fun _ => .pure _) fun _ s => ?_
    -- the block read is needed: what is written back after a fault is the same block
    rw [wp_bind]
    unfold bread
    rw [wp_view]
    generalize min (n - tot) (BSIZE - off % BSIZE) = m
    by_cases hm : m ≤ src.copied tot m
    · simp only [if_pos hm]
      exact (logged_logWrite _ _).bind (fun _ => ih _ _) s
    · simp only [if_neg hm]
      rw [wp_bind, wp_change, (hwhole tot m).resolve_left hm, wp_pure]
      refine ⟨fun _ hb => hb, fun b _ => ?_⟩
      rw [write_none, write_disk, Function.update_eq_self]

theorem logged_writei {src : Source} (hwhole : src.Whole) (off n : Nat) :
    Stable logged (fun _ => True) (writei sb e src off n) :=
  stable_writei logged_logWrite (fun _ => logged_onInode) (logged_writeiLoop hwhole _ _ _ _)

end

section
variable {sb : Superblock} {s t : Sys} {e : Fin NINODE} {src : Source} {dev : Disk}

def Reads (sb : Superblock) (e : Fin NINODE) (s : Sys) (l : List UInt8) : Prop :=
  ∀ off n : UInt32, exec (readi sb e Sink.kernel off.toNat n.toNat) s =
    .ok (((readBytes l off.toNat n.toNat).length, readBytes l off.toNat n.toNat), s)

theorem Volume.reads (hvol : Volume sb s) (he : Locked sb s e) : Reads sb e s (content s.disk (s.itable e).d) := fun off n => by
  obtain ⟨r, t, hrun, hr, ht⟩ := exec_of_wp (wp_readi_content hvol he off.toNat_lt n.toNat_lt)
  rw [hrun, hr, ht]

theorem Volume.commit (h : Volume sb s) : Volume sb s.commit := ⟨h.uniq, h.front, h.used, h.inj, h.full⟩

theorem Locked.commit (h : Locked sb s e) : Locked sb s.commit e := ⟨h.ref, h.valid, h.locked, h.inum⟩

theorem Wrote.locked {off n tot : Nat} (h : Wrote sb e src off n tot s t) (he : Locked sb s e) : Locked sb t e :=
  ⟨by rw [h.aside.ref]; exact he.ref, h.valid, by rw [h.aside.locked]; exact he.locked, by rw [h.aside.inum]; exact he.inum⟩

def firstBlock : Source := ⟨fun _ => 7, fun tot m => if tot < 1024 then m else 0⟩

def torn : Source := ⟨fun _ => 7, fun tot m => min m (3 - tot)⟩

end

end Xv6.Fs
