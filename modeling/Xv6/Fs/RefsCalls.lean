import Xv6.Fs.Refs

/-! Reference counts over system calls; between calls none is left over. -/

namespace Xv6.Fs
open Lib

variable {h h' : Fin NINODE → Int} {g g' : Fin NFILE → Int} {L : Fin NINODE → Bool} {s t : Sys} {e : Fin NINODE}
  {i : Fin NFILE} {sb : Superblock} {p : Fin NPROC}

def endOpen (P : Nat → Option Pipe) (pi : Nat) (w : Bool) : Int := if (P pi).any (·.isOpen w) then 1 else 0

theorem Refs.setFile {f : File} {P : Nat → Option Pipe} {k : Int} {m : Fin NINODE → Int}
    (H : Refs h g L s)
    (hh : ∀ e, (s.ftable i).opens e + h e = f.opens e + m e) (hk : f.ref = (s.ftable i).ref + k)
    (hdead : f.ref = 0 → f.type = .none)
    (hpip : ∀ pi w, f.isEnd pi w + endOpen s.pipe pi w = (s.ftable i).isEnd pi w + endOpen P pi w)
    (hkept : ∀ pi x, P pi = some x → x.readopen = true ∨ x.writeopen = true) :
    Refs m (bump g i k) L { s.setFile i f with pipe := P } where
  ino e := by
    have hold := H.ino e
    have hnew := hh e
    have hsum := sum_update (fun f => f.opens e) s.ftable i f
    simp only [Sys.openCount, Sys.cwdCount] at hold ⊢
    simp only [Sys.setFile]
    omega
  fil j := by
    have hold := H.fil j
    change _ = s.fdCount j + _
    change ((s.setFile i f).ftable j).ref = _
    rw [setFile_ftable]
    unfold bump
    by_cases hj : j = i
    · subst hj
      rw [if_pos rfl, if_pos rfl]
      omega
    · rw [if_neg hj, if_neg hj]
      exact hold
  dead j := by
    change ((s.setFile i f).ftable j).ref = 0 → ((s.setFile i f).ftable j).type = .none
    rw [setFile_ftable]
    split
    · exact hdead
    · exact H.dead j
  pip pi w := by
    have hold := H.pip pi w
    have hnew := hpip pi w
    have hsum := sum_update (fun f => f.isEnd pi w) s.ftable i f
    simp only [Sys.endCount, endOpen] at hold hnew ⊢
    simp only [Sys.setFile]
    omega
  kept := hkept
  lock := H.lock

theorem Refs.sameFile {f : File} {k : Int} (H : Refs h g L s) (hk : f.ref = (s.ftable i).ref + k)
    (hsame : (f.type, f.ip, f.pipe, f.writable) =
      ((s.ftable i).type, (s.ftable i).ip, (s.ftable i).pipe, (s.ftable i).writable))
    (hdead : f.ref = 0 → f.type = .none) : Refs h (bump g i k) L (s.setFile i f) := by
  simp only [Prod.mk.injEq] at hsame
  obtain ⟨h1, h2, h3, h4⟩ := hsame
  refine H.setFile (P := s.pipe) (fun e => ?_) hk hdead (fun pi w => ?_) H.kept
  · unfold File.opens
    rw [h1, h2]
  · unfold File.isEnd
    rw [h1, h3, h4]

theorem Refs.setProc {x : Proc} (H : Refs h g L s) (hh : ∀ e, (s.proc p).isIn e + h e = x.isIn e + h' e)
    (hg : ∀ i, (s.proc p).holds i + g i = x.holds i + g' i) : Refs h' g' L (s.setProc p x) where
  ino e := by
    have hold := H.ino e
    have hnew := hh e
    have hsum := sum_update (fun x => x.isIn e) s.proc p x
    simp only [Sys.openCount, Sys.cwdCount] at hold ⊢
    simp only [Sys.setProc]
    omega
  fil i := by
    have hold := H.fil i
    have hnew := hg i
    have hsum := sum_update (fun x => x.holds i) s.proc p x
    simp only [Sys.fdCount] at hold ⊢
    simp only [Sys.setProc]
    omega
  dead := H.dead
  pip := H.pip
  kept := H.kept
  lock := H.lock

theorem holds_setFd (x : Proc) (fd : Fin NOFILE) (f : Option (Fin NFILE)) :
    (x.setFd fd f).holds i = x.holds i - (if x.ofile fd = some i then 1 else 0) + if f = some i then 1 else 0 :=
  sum_update (fun f => if f = some i then 1 else 0) x.ofile fd f

theorem Refs.fill {d : Fin NOFILE} (H : Refs h g L s) (hnone : (s.proc p).ofile d = none) :
    Refs h (bump g i (-1)) L (s.setProc p ((s.proc p).setFd d (some i))) := by
  refine H.setProc (fun e => rfl) fun j => ?_
  rw [holds_setFd, hnone]
  unfold bump
  by_cases hj : j = i
  · subst hj; simp; omega
  · simp [hj, Ne.symm hj]

theorem Refs.clear {d : Fin NOFILE} (H : Refs h g L s) (hsome : (s.proc p).ofile d = some i) :
    Refs h (bump g i 1) L (s.setProc p ((s.proc p).setFd d none)) := by
  refine H.setProc (fun e => rfl) fun j => ?_
  rw [holds_setFd, hsome]
  unfold bump
  by_cases hj : j = i
  · subst hj; simp
  · simp [hj, Ne.symm hj]

theorem Refs.held {fd : Fin NOFILE} (H : Refs h g L s) (hfd : (s.proc p).ofile fd = some i) (hg : 0 ≤ g i) :
    1 ≤ (s.ftable i).ref := by
  have hold := H.fil i
  have hp : (s.proc p).holds i ≤ s.fdCount i := le_sum_of_nonneg (fun q => holds_nonneg (s.proc q)) p
  have hone : (if (s.proc p).ofile fd = some i then 1 else 0) ≤ (s.proc p).holds i :=
    le_sum_of_nonneg (g := fun fd => if (s.proc p).ofile fd = some i then 1 else 0) (fun _ => by split <;> omega) fd
  rw [if_pos hfd] at hone
  omega

theorem Refs.opened (H : Refs h g L s) (ht : (s.ftable i).type = .inode ∨ (s.ftable i).type = .device)
    (hh : 0 ≤ h (s.ftable i).ip) : 1 ≤ (s.itable (s.ftable i).ip).ref := by
  have hold := H.ino (s.ftable i).ip
  have hone : (s.ftable i).opens (s.ftable i).ip ≤ s.openCount (s.ftable i).ip :=
    le_sum_of_nonneg (g := fun j => (s.ftable j).opens (s.ftable i).ip)
      (fun j => by unfold File.opens; split <;> omega) i
  have hself : (s.ftable i).opens (s.ftable i).ip = 1 := if_pos ⟨ht, rfl⟩
  have := cwdCount_nonneg (s := s) (e := (s.ftable i).ip)
  omega

/-! ### Files -/

theorem wp_filealloc {Q : Option (Fin NFILE) → Sys → Prop} {E : Stop → Sys → Prop} (hnone : Q none s)
    (hsome : ∀ i, (s.ftable i).ref = 0 → Q (some i) (s.setFile i ((s.ftable i).setRef 1))) : wp filealloc Q E s := by
  unfold filealloc
  rw [wp_bind, wp_view]
  split
  · rename_i i hi
    rw [wp_bind]
    exact hsome i (by simpa using List.find?_some hi)
  · exact hnone

theorem Refs.allocFile (H : Refs h g L s) (hz : (s.ftable i).ref = 0) :
    Refs h (bump g i 1) L (s.setFile i ((s.ftable i).setRef 1)) :=
  H.sameFile (by rw [hz]; rfl) rfl fun h0 => by cases h0

theorem Refs.counted (H : Refs h (bump g i 1) L s) (hg : 0 ≤ g i) : 1 ≤ (s.ftable i).ref := by
  have hold := H.fil i
  have hfd := fdCount_nonneg (s := s) (i := i)
  rw [bump_self] at hold
  omega

theorem Refs.filedup (H : Refs h g L s) (hpos : 1 ≤ (s.ftable i).ref) :
    wp (Fs.filedup i) (fun _ t => t.proc = s.proc ∧ Refs h (bump g i 1) L t) (fun e _ => Fine e) s := by
  unfold Fs.filedup
  simp only [wp_bind, wp_view, wp_stopIf]
  refine ⟨fun hlt => absurd hlt (by omega), fun _ => ⟨rfl, H.sameFile rfl rfl fun h0 => ?_⟩⟩
  change (s.ftable i).ref + 1 = 0 at h0
  omega

theorem wp_fdalloc {Q : Option (Fin NOFILE) → Sys → Prop} {E : Stop → Sys → Prop} (hnone : Q none s)
    (hsome : ∀ fd, (s.proc p).ofile fd = none → Q (some fd) (s.setProc p ((s.proc p).setFd fd (some i)))) :
    wp (fdalloc p i) Q E s := by
  unfold fdalloc
  rw [wp_bind, wp_view]
  split
  · rename_i fd hfd
    rw [wp_bind]
    exact hsome fd (by simpa using List.find?_some hfd)
  · exact hnone

theorem Refs.closeFile {f : File} (H : Refs h (bump g i 1) L s) (hone : (s.ftable i).ref = 1)
    (hf : f.ref = 0 ∧ f.type = .none) (ht : (s.ftable i).type ≠ .pipe) :
    Refs (if (s.ftable i).type = .none then h else bump h (s.ftable i).ip 1) g L (s.setFile i f) := by
  have hpipe : ∀ (x : File) pi w, x.type ≠ .pipe → x.isEnd pi w = 0 := fun x pi w hx => if_neg fun hc => hx hc.1
  have := H.setFile (i := i) (f := f) (P := s.pipe) (k := -1)
    (m := if (s.ftable i).type = .none then h else bump h (s.ftable i).ip 1) (fun e => ?_) (by omega) (fun _ => hf.2)
    (fun pi w => by rw [hpipe f pi w (by rw [hf.2]; decide), hpipe _ pi w ht]) H.kept
  · rw [bump_cancel (by omega)] at this
    exact this
  · simp only [File.opens, hf.2]
    by_cases hn : (s.ftable i).type = .none
    · simp [hn]
    · have hk : (s.ftable i).type = .inode ∨ (s.ftable i).type = .device := by
        cases hty : (s.ftable i).type <;> simp_all
      unfold bump
      by_cases he : (s.ftable i).ip = e
      · subst he; simp [hk, hn]; omega
      · simp [hn, he, Ne.symm he]

theorem Refs.closePipe {f : File} (H : Refs h (bump g i 1) L s) (hone : (s.ftable i).ref = 1)
    (hf : f.ref = 0 ∧ f.type = .none) (ht : (s.ftable i).type = .pipe) :
    wp (pipeclose (s.ftable i).pipe (s.ftable i).writable) (fun _ t => Refs h g L t) (fun e _ => Fine e)
      (s.setFile i f) := by
  -- the pipe is there, and this end of it is open
  have hend : (s.ftable i).isEnd (s.ftable i).pipe (s.ftable i).writable = 1 := if_pos ⟨ht, rfl, rfl⟩
  have hle := le_sum_of_nonneg (g := fun j => (s.ftable j).isEnd (s.ftable i).pipe (s.ftable i).writable)
    (fun j => by unfold File.isEnd; split <;> omega) i
  have hpip := H.pip (s.ftable i).pipe (s.ftable i).writable
  have hopen : (s.pipe (s.ftable i).pipe).any (·.isOpen (s.ftable i).writable) = true := by
    by_contra hc
    rw [if_neg hc] at hpip
    unfold Sys.endCount at hpip
    omega
  have hset : ∀ y : Option Pipe, (∀ x, y = some x → x.readopen = true ∨ x.writeopen = true) →
      y.any (·.isOpen (s.ftable i).writable) = false →
      y.any (·.isOpen !(s.ftable i).writable) = (s.pipe (s.ftable i).pipe).any (·.isOpen !(s.ftable i).writable) →
      Refs h g L ((s.setFile i f).setPipe (s.ftable i).pipe y) := by
    intro y hkept hthis hother
    have := H.setFile (i := i) (f := f) (P := Function.update s.pipe (s.ftable i).pipe y) (k := -1) (m := h)
      (fun e => by simp [File.opens, hf.2, ht]) (by omega) (fun _ => hf.2) (fun pi w => ?_) fun pi x => ?_
    · rw [bump_cancel (by omega)] at this
      exact this
    · have hzero : f.isEnd pi w = 0 := if_neg fun hc => by rw [hf.2] at hc; cases hc.1
      rw [hzero]
      unfold endOpen
      rw [Function.update_apply]
      by_cases hpi : pi = (s.ftable i).pipe
      · subst hpi
        by_cases hw : w = (s.ftable i).writable
        · subst hw
          simp [hend, hthis, hopen]
        · obtain rfl := Bool.eq_not.mpr hw
          simp [File.isEnd, hother]
      · simp [File.isEnd, hpi, Ne.symm hpi]
    · rw [Function.update_apply]
      split
      · exact hkept x
      · exact H.kept pi x
  unfold pipeclose
  rw [wp_bind, wp_view, setFile_pipe]
  cases hx : s.pipe (s.ftable i).pipe with
  | none => rw [hx] at hopen; cases hopen
  | some x =>
    rw [hx] at hset hopen
    obtain ⟨r, w⟩ := x
    simp only [wp_ite, wp_change]
    cases hw : (s.ftable i).writable <;> rw [hw] at hset hopen <;> cases r <;> cases w <;>
      simp_all [Pipe.isOpen]

theorem Refs.fileclose (H : Refs h (bump g i 1) L s) (hpos : 1 ≤ (s.ftable i).ref) :
    wp (Fs.fileclose sb i) (fun _ t => Refs h g L t) (fun e _ => Fine e) s := by
  unfold Fs.fileclose
  simp only [wp_bind, wp_view, wp_stopIf]
  refine ⟨fun hlt => absurd hlt (by omega), fun _ => ?_⟩
  unfold onFile
  rw [wp_change]
  split
  · rename_i hgt
    have := H.sameFile (i := i) (f := (s.ftable i).setRef ((s.ftable i).ref - 1)) (k := -1) rfl rfl fun h0 => by
      change (s.ftable i).ref - 1 = 0 at h0
      omega
    rwa [bump_cancel (by omega)] at this
  · rename_i hle
    have hone : (s.ftable i).ref = 1 := by omega
    rw [wp_bind, wp_change, setFile_self]
    have hset : ∀ f f' : File, (s.setFile i f).setFile i f' = s.setFile i f' := fun f f' => by
      simp only [Sys.setFile, Function.update_idem]
    rw [hset]
    cases ht : (s.ftable i).type with
    | pipe => exact H.closePipe hone ⟨rfl, rfl⟩ ht
    | none =>
      have := H.closeFile (f := { s.ftable i with ref := 0, type := .none }) hone ⟨rfl, rfl⟩ (by rw [ht]; decide)
      rw [if_pos ht] at this
      exact this
    | inode | device =>
      have := H.closeFile (f := { s.ftable i with ref := 0, type := .none }) hone ⟨rfl, rfl⟩ (by rw [ht]; decide)
      rw [if_neg (by rw [ht]; decide)] at this
      refine this.seq still_beginOp fun _ t H1 => ?_
      exact wp_then H1.iput fun _ t H2 => still_endOp.wp (fun _ u hu => H2.of_still hu) fun _ _ he => he

def procs : Frame Sys := Frame.of Sys.proc

theorem procs_of_files {α : Type} {m : M α} (h : Stable files (fun _ => True) m) : Stable procs (fun _ => True) m :=
  h.mono (fun _ _ hst => congrArg (Prod.fst ∘ Prod.snd) hst) fun _ _ => trivial

theorem procs_fileclose : Stable procs (fun _ => True) (Fs.fileclose sb i) := by
  have hpipe : ∀ pi w, Stable procs (fun _ => True) (pipeclose pi w) := fun pi w => by
    unfold pipeclose
    refine .bind (.view _) fun x => ?_
    cases x with
    | none => exact .halt trivial
    | some x => exact .ite (fun _ => .change fun _ => rfl) fun _ => .change fun _ => rfl
  unfold Fs.fileclose
  refine .bind (.view _) fun f => .bind (.stopIf trivial) fun _ => .bind (.change fun _ => rfl) fun _ => ?_
  refine .ite (fun _ => .pure _) fun _ => .bind (.change fun _ => rfl) fun _ => ?_
  cases f.type with
  | pipe => exact hpipe _ _
  | none => exact .pure _
  | inode | device =>
    exact .bind (procs_of_files (files_of_still still_beginOp)) fun _ => .bind (procs_of_files files_iput) fun _ =>
      procs_of_files (files_of_still still_endOp)

theorem Refs.newPipe {f0 f1 : Fin NFILE} {x0 x1 : File} {pi : Nat} (H : Refs h g L s) (hne : f1 ≠ f0)
    (hnone : s.pipe pi = none) (h0 : (s.ftable f0).type = .none) (h1 : (s.ftable f1).type = .none)
    (hr0 : x0.ref = (s.ftable f0).ref ∧ x0.ref ≠ 0) (hr1 : x1.ref = (s.ftable f1).ref ∧ x1.ref ≠ 0)
    (hx0 : x0.type = .pipe ∧ x0.pipe = pi ∧ x0.writable = false)
    (hx1 : x1.type = .pipe ∧ x1.pipe = pi ∧ x1.writable = true) :
    Refs h g L (((s.setPipe pi (some ⟨true, true⟩)).setFile f0 x0).setFile f1 x1) := by
  -- one end after the other
  have H0 := H.setFile (i := f0) (f := x0) (P := Function.update s.pipe pi (some ⟨true, false⟩)) (k := 0) (m := h)
    (fun e => by simp [File.opens, h0, hx0.1]) (by omega) (fun hz => absurd hz hr0.2) (fun pj w => ?_) fun pj x => ?_
  · have hf1 : (Function.update s.ftable f0 x0) f1 = s.ftable f1 := Function.update_of_ne hne _ _
    have H1 := H0.setFile (i := f1) (f := x1) (P := Function.update s.pipe pi (some ⟨true, true⟩)) (k := 0) (m := h)
      (fun e => ?_) ?_ (fun hz => absurd hz hr1.2) (fun pj w => ?_) fun pj x => ?_
    · rw [bump_zero, bump_zero] at H1
      exact H1
    · simp [Sys.setFile, hf1, File.opens, h1, hx1.1]
    · simp only [Sys.setFile, hf1]
      omega
    · simp only [Sys.setFile, hf1, File.isEnd, h1, hx1, endOpen, Function.update_apply]
      by_cases hp : pj = pi
      · subst hp
        cases w <;> simp [Pipe.isOpen]
      · simp [hp, Ne.symm hp]
    · rw [Function.update_apply]
      split
      · rintro ⟨⟩
        exact Or.inl rfl
      · exact H.kept pj x
  · simp only [File.isEnd, h0, hx0, endOpen, Function.update_apply]
    by_cases hp : pj = pi
    · subst hp
      cases w <;> simp [Pipe.isOpen, hnone]
    · simp [hp, Ne.symm hp]
  · rw [Function.update_apply]
    split
    · rintro ⟨⟩
      exact Or.inl rfl
    · exact H.kept pj x

theorem Refs.pipealloc (hg : ∀ i, 0 ≤ g i) (H : Refs h g L s) (page : Option Nat) :
    wp (Fs.pipealloc sb page) (fun r t => match r with
      | none => Refs h g L t
      | some (f0, f1) => f1 ≠ f0 ∧ t.proc = s.proc ∧ Refs h (bump (bump g f0 1) f1 1) L t) (fun e _ => Fine e) s := by
  unfold Fs.pipealloc
  rw [wp_bind]
  refine wp_filealloc H fun f0 hz0 => ?_
  have H0 := H.allocFile hz0
  have ht0 := H.dead f0 hz0
  change wp (filealloc >>= _) _ _ _
  rw [wp_bind]
  refine wp_filealloc ?_ fun f1 hz1 => ?_
  · change wp (Fs.fileclose sb f0 >>= fun _ => Pure.pure none) _ _ _
    rw [wp_bind]
    exact H0.fileclose (H0.counted (hg f0))
  · have hne : f1 ≠ f0 := fun hc => by
      rw [hc, setFile_self] at hz1
      cases hz1
    have H1 := H0.allocFile hz1
    have ht1 := H0.dead f1 hz1
    rw [setFile_ftable, if_neg hne] at H1 ht1
    change wp (pipePage page >>= _) _ _ _
    unfold pipePage
    rw [wp_bind, wp_view, setFile_ftable, if_neg hne]
    split
    · change wp (Fs.fileclose sb f0 >>= fun _ => Fs.fileclose sb f1 >>= fun _ => Pure.pure none) _ _ _
      rw [wp_bind]
      rw [bump_comm] at H1
      have hg1 : 0 ≤ bump g f1 1 f0 := by
        unfold bump
        have := hg f0
        split <;> omega
      refine wp_post (H1.fileclose (H1.counted hg1)) fun _ t H2 => ?_
      rw [wp_bind]
      exact H2.fileclose (H2.counted (hg f1))
    · rename_i pi hpi
      have hnone : s.pipe pi = none := by
        cases page with
        | none => cases hpi
        | some pj =>
          by_cases hc : s.pipe pj = none
          · simp [hc] at hpi
            rwa [← hpi]
          · simp [hc] at hpi
      simp only [wp_bind, wp_change, onFile]
      refine ⟨hne, rfl, H1.newPipe hne hnone ?_ ?_ ⟨?_, ?_⟩ ⟨?_, ?_⟩ ⟨rfl, rfl, rfl⟩ ⟨rfl, rfl, rfl⟩⟩
      all_goals simp only [setPipe_ftable, setFile_ftable, hne, hne.symm, if_false, if_true]
      all_goals first | exact ht0 | exact ht1 | rfl | exact fun hz => by cases hz

theorem files_proc (hst : files.rel s t) : t.proc = s.proc := congrArg (Prod.fst ∘ Prod.snd) hst

theorem files_ftable (hst : files.rel s t) : t.ftable = s.ftable := congrArg Prod.fst hst

theorem still_ref (hst : still.rel s t) : (t.itable e).ref = (s.itable e).ref :=
  congrArg (fun x => (x.1 e).2.1) (show t.shape = s.shape from hst)

theorem wp_files {α β : Type} {m : M α} {f : α → M β} {P : α → Sys → Prop} {Q : β → Sys → Prop} {E : Stop → Sys → Prop}
    (hm : wp m P E s) (hfiles : Stable files (fun _ => True) m)
    (hf : ∀ a t, P a t → files.rel s t → wp (f a) Q E t) : wp (m >>= f) Q E s :=
  wp_bind.mpr (wp_post (hfiles.and_wp hm) (fun a t ht => hf a t ht.1 ht.2))

theorem Refs.finish {α : Type} {Q : α → Sys → Prop} {r : α} (H : Refs h g L s) (hQ : ∀ t, Refs h g L t → Q r t) :
    wp (do endOp; Pure.pure r) Q (fun e _ => Fine e) s :=
  H.seq still_endOp fun _ t H1 => hQ t H1

variable {ip dp : Fin NINODE}

theorem Refs.linkBad (hh : ∀ e, 0 ≤ h e) (H : Refs (bump h ip 1) g L s) :
    wp (Fs.linkBad sb ip) (fun _ t => Refs h g L t) (fun e _ => Fine e) s := by
  unfold Fs.linkBad
  refine wp_then (H.ilock (H.pos (by rw [bump_self]; have := hh ip; omega))) fun _ t ⟨hL, H1⟩ => ?_
  refine H1.seq (still_setNlink _) fun _ t H2 => ?_
  exact wp_then (H2.iunlockput hL (hh ip)) fun _ t H3 => H3.finish fun _ => id

theorem bump_nonneg {α : Type} [DecidableEq α] {h : α → Int} {a : α} (hh : ∀ x, 0 ≤ h x) : ∀ x, 0 ≤ bump h a 1 x := by
  intro x
  have := hh x
  unfold bump
  split <;> omega

theorem Refs.linkTo (hh : ∀ e, 0 ≤ h e) (H : Refs (bump h ip 1) g (lockd L ip) s) (hL : L ip = false)
    (hp : (s.proc p).cwd.isSome) (new : Path) :
    wp (Fs.linkTo sb p ip new) (fun _ t => Refs h g L t) (fun e _ => Fine e) s := by
  unfold Fs.linkTo
  refine wp_files (still_setNlink (fun n => n + 1) s) (files_of_still (still_setNlink _)) fun _ t ht hft => ?_
  have H1 := H.of_still ht
  refine wp_files (H1.iunlock hL (H1.pos (by rw [bump_self]; have := hh ip; omega))) files_iunlock fun _ u H2 hfu => ?_
  refine wp_then (H2.nameiparent (bump_nonneg hh) (by rwa [files_proc hfu, files_proc hft]) new) fun r v H3 => ?_
  cases r with
  | none => exact Refs.linkBad hh H3
  | some r =>
    obtain ⟨dp, name⟩ := r
    change Refs (bump (bump h ip 1) dp 1) g L v at H3
    refine wp_then (H3.ilock (H3.pos (by rw [bump_self]; have := bump_nonneg (a := ip) hh dp; omega)))
      fun _ v ⟨hL, H4⟩ => ?_
    rw [wp_bind, wp_view]
    refine wp_then (H4.dirlink name _) fun r v H5 => ?_
    refine wp_then (H5.iunlockput hL (bump_nonneg hh dp)) fun _ v H6 => ?_
    split
    · exact H6.linkBad hh
    · exact wp_then H6.iput fun _ v H7 => H7.finish fun _ => id

theorem Refs.sysLink (hh : ∀ e, 0 ≤ h e) (H : Refs h g L s) (hp : (s.proc p).cwd.isSome) (old new : Option Path) :
    wp (Fs.sysLink sb p old new) (fun _ t => Refs h g L t) (fun e _ => Fine e) s := by
  unfold Fs.sysLink
  split
  · rename_i old new _ _
    refine wp_files (still_beginOp s) (files_of_still still_beginOp) fun _ t ht hft => ?_
    have H1 := H.of_still ht
    have hpt : (t.proc p).cwd.isSome := by rwa [files_proc hft]
    refine wp_files (H1.namei hh hpt old) (files_namei _ _) fun r u H2 hfu => ?_
    cases r with
    | none => exact Refs.finish H2 fun _ => id
    | some ip =>
      change Refs (bump h ip 1) g L u at H2
      refine wp_files (H2.ilock (H2.pos (by rw [bump_self]; have := hh ip; omega))) files_ilock
        fun _ v ⟨hL, H3⟩ hfv => ?_
      rw [wp_bind, wp_view]
      split
      · exact wp_then (H3.iunlockput hL (hh ip)) fun _ v H4 => H4.finish fun _ => id
      · exact H3.linkTo hh hL (by rwa [files_proc hfv, files_proc hfu]) new
  · exact H

theorem Refs.unlinkBad (H : Refs (bump h dp 1) g (lockd L dp) s) (hL : L dp = false) (hh : ∀ e, 0 ≤ h e) :
    wp (Fs.unlinkBad sb dp) (fun _ t => Refs h g L t) (fun e _ => Fine e) s := by
  unfold Fs.unlinkBad
  exact wp_then (H.iunlockput hL (hh dp)) fun _ t H1 => H1.finish fun _ => id

theorem lockd_comm : lockd (lockd L ip) dp = lockd (lockd L dp) ip := by
  unfold lockd
  by_cases he : ip = dp
  · rw [he]
  · exact Function.update_comm he _ _ _

theorem Refs.unlinkIn (hh : ∀ e, 0 ≤ h e) (H : Refs (bump h dp 1) g (lockd L dp) s) (hL : L dp = false)
    (name : List UInt8) : wp (Fs.unlinkIn sb dp name) (fun _ t => Refs h g L t) (fun e _ => Fine e) s := by
  unfold Fs.unlinkIn
  split
  · exact H.unlinkBad hL hh
  · refine wp_then (H.dirlookup name) fun r t H1 => ?_
    cases r with
    | none => exact Refs.unlinkBad H1 hL hh
    | some r =>
      obtain ⟨ip, off⟩ := r
      change Refs (bump (bump h dp 1) ip 1) g (lockd L dp) t at H1
      refine wp_then (H1.ilock (H1.pos (by rw [bump_self]; have := bump_nonneg (a := dp) hh ip; omega)))
        fun _ t hlk => ?_
      obtain ⟨hLi, H2⟩ := hlk
      have hne : ip ≠ dp := fun hc => by rw [hc, lockd, Function.update_self] at hLi; cases hLi
      have hLi' : L ip = false := by rwa [lockd, Function.update_of_ne hne] at hLi
      have hLd : lockd L ip dp = false := by rwa [lockd, Function.update_of_ne hne.symm]
      rw [wp_bind, wp_view, wp_bind, wp_stopIf]
      refine ⟨fun _ => by decide, fun _ => ?_⟩
      have hempty : Stable still Fine (if (t.itable ip).d.type = T_DIR then isdirempty sb ip else Pure.pure true) :=
        .ite (fun _ => still_isdirempty) fun _ => .pure _
      refine H2.seq hempty fun empty t H3 => ?_
      split
      · exact wp_then (H3.iunlockput hLi (bump_nonneg hh ip)) fun _ t H4 => H4.unlinkBad hL hh
      · unfold unlinkAt
        refine H3.seq (still_writei _ _ _) fun r t H4 => H4.seq (.stopIf (by decide)) fun _ t H5 => ?_
        rw [wp_bind, wp_view]
        refine H5.seq (.doIf (still_setNlink _)) fun _ t H6 => ?_
        rw [wp_bind]
        rw [bump_comm, lockd_comm] at H6
        refine wp_post (H6.iunlockput hLd (bump_nonneg hh dp)) fun _ t H7 => ?_
        refine H7.seq (still_setNlink _) fun _ t H8 => ?_
        exact wp_then (H8.iunlockput hLi' (hh ip)) fun _ t H9 => H9.finish fun _ => id

theorem Refs.sysUnlink (hh : ∀ e, 0 ≤ h e) (H : Refs h g L s) (hp : (s.proc p).cwd.isSome) (path : Option Path) :
    wp (Fs.sysUnlink sb p path) (fun _ t => Refs h g L t) (fun e _ => Fine e) s := by
  unfold Fs.sysUnlink
  split
  · exact H
  · rename_i path _
    refine wp_files (still_beginOp s) (files_of_still still_beginOp) fun _ t ht hft => ?_
    rw [wp_bind]
    have hpt : (t.proc p).cwd.isSome := by rwa [files_proc hft]
    refine wp_post ((H.of_still ht).nameiparent hh hpt path) fun r u H1 => ?_
    cases r with
    | none => exact Refs.finish H1 fun _ => id
    | some r =>
      obtain ⟨dp, name⟩ := r
      change Refs (bump h dp 1) g L u at H1
      exact wp_then (H1.ilock (H1.pos (by rw [bump_self]; have := hh dp; omega)))
        fun _ t ⟨hL, H2⟩ => H2.unlinkIn hh hL name

/-! ### Calls that create and open -/

theorem Refs.createFail (hh : ∀ e, 0 ≤ h e) (H : Refs (bump (bump h dp 1) ip 1) g (lockd (lockd L dp) ip) s)
    (hL : L dp = false) (hLi : lockd L dp ip = false) :
    wp (Fs.createFail sb dp ip) (fun r t => r = none ∧ Refs h g L t) (fun e _ => Fine e) s := by
  unfold Fs.createFail
  refine H.seq (still_setNlink _) fun _ t H1 => ?_
  refine wp_then (H1.iunlockput hLi (bump_nonneg hh ip)) fun _ t H2 => ?_
  exact wp_then (H2.iunlockput hL (hh dp)) fun _ t H3 => ⟨rfl, H3⟩

theorem Refs.linkDots (H : Refs h g L s) :
    wp (Fs.linkDots sb dp ip) (fun _ t => Refs h g L t) (fun e _ => Fine e) s := by
  unfold Fs.linkDots
  rw [wp_bind, wp_view]
  refine wp_then (H.dirlink _ _) fun r t H1 => ?_
  split
  · exact H1
  · rw [wp_bind, wp_view]
    exact wp_then (H1.dirlink _ _) fun r t H2 => H2

/-- What the caller of `create` holds: nothing more than before, or a locked inode. -/
def Created (h : Fin NINODE → Int) (g : Fin NFILE → Int) (L : Fin NINODE → Bool) (r : Option (Fin NINODE)) (t : Sys) :
    Prop :=
  match r with
  | none => Refs h g L t
  | some ip => L ip = false ∧ Refs (bump h ip 1) g (lockd L ip) t

theorem Refs.createIn (hh : ∀ e, 0 ≤ h e) (H : Refs (bump (bump h dp 1) ip 1) g (lockd L dp) s) (hL : L dp = false)
    (name : List UInt8) (type major minor : Int16) :
    wp (Fs.createIn sb dp ip name type major minor) (Created h g L) (fun e _ => Fine e) s := by
  have hfail : ∀ t, Refs (bump (bump h dp 1) ip 1) g (lockd (lockd L dp) ip) t → lockd L dp ip = false →
      wp (Fs.createFail sb dp ip) (Created h g L) (fun e _ => Fine e) t := fun t Ht hLi =>
    wp_post (Ht.createFail hh hL hLi) fun r u ⟨hr, Hu⟩ => by rw [hr]; exact Hu
  unfold Fs.createIn
  refine wp_then (H.ilock (H.pos (by rw [bump_self]; have := bump_nonneg (a := dp) hh ip; omega)))
    fun _ t ⟨hLi, H1⟩ => ?_
  have hne : ip ≠ dp := fun hc => by rw [hc, lockd, Function.update_self] at hLi; cases hLi
  have hLi' : L ip = false := by rwa [lockd, Function.update_of_ne hne] at hLi
  have hLd : lockd L ip dp = false := by rwa [lockd, Function.update_of_ne hne.symm]
  refine H1.seq (still_onInode fun _ => rfl) fun _ t H2 => H2.seq still_iupdate fun _ t H3 => ?_
  have hdots : wp (if type = T_DIR then Fs.linkDots sb dp ip else Pure.pure true)
      (fun _ t => Refs (bump (bump h dp 1) ip 1) g (lockd (lockd L dp) ip) t) (fun e _ => Fine e) t := by
    split
    · exact H3.linkDots
    · exact H3
  refine wp_then hdots fun ok t H4 => ?_
  split
  · exact hfail t H4 hLi
  · rw [wp_bind, wp_view]
    refine wp_then (H4.dirlink _ _) fun r t H5 => ?_
    split
    · exact hfail t H5 hLi
    · refine H5.seq (.doIf (still_setNlink _)) fun _ t H6 => ?_
      rw [wp_bind]
      rw [bump_comm, lockd_comm] at H6
      exact wp_post (H6.iunlockput hLd (bump_nonneg hh dp)) fun _ t H7 => ⟨hLi', H7⟩

theorem Refs.create (hh : ∀ e, 0 ≤ h e) (H : Refs h g L s) (hp : (s.proc p).cwd.isSome) (path : Path)
    (type major minor : Int16) :
    wp (Fs.create sb p path type major minor) (Created h g L) (fun e _ => Fine e) s := by
  unfold Fs.create
  refine wp_then (H.nameiparent hh hp path) fun r t H1 => ?_
  cases r with
  | none => exact H1
  | some r =>
    obtain ⟨dp, name⟩ := r
    change Refs (bump h dp 1) g L t at H1
    refine wp_then (H1.ilock (H1.pos (by rw [bump_self]; have := hh dp; omega))) fun _ t ⟨hL, H2⟩ => ?_
    refine wp_then (H2.dirlookup name) fun r t H3 => ?_
    cases r with
    | some r =>
      obtain ⟨ip, off⟩ := r
      change Refs (bump (bump h dp 1) ip 1) g (lockd L dp) t at H3
      rw [bump_comm] at H3
      refine wp_then (H3.iunlockput hL (bump_nonneg hh dp)) fun _ t H4 => ?_
      refine wp_then (H4.ilock (H4.pos (by rw [bump_self]; have := hh ip; omega))) fun _ t ⟨hLi, H5⟩ => ?_
      rw [wp_bind, wp_view]
      split
      · exact ⟨hLi, H5⟩
      · rw [wp_bind]
        exact H5.iunlockput hLi (hh ip)
    | none =>
      refine wp_then (Refs.ialloc H3 type) fun r t H4 => ?_
      cases r with
      | none =>
        rw [wp_bind]
        exact Refs.iunlockput H4 hL (hh dp)
      | some ip => exact Refs.createIn hh H4 hL _ _ _ _

theorem Refs.openBad (hh : ∀ e, 0 ≤ h e) (H : Refs (bump h ip 1) g (lockd L ip) s) (hL : L ip = false) :
    wp (Fs.openBad sb ip) (fun _ t => Refs h g L t) (fun e _ => Fine e) s := by
  unfold Fs.openBad
  exact wp_then (H.iunlockput hL (hh ip)) fun _ t H1 => H1.finish fun _ => id

theorem Refs.openFile {f : File} (H : Refs (bump h ip 1) g L s) (hn : (s.ftable i).type = .none)
    (hr : f.ref = (s.ftable i).ref ∧ f.ref ≠ 0) (ht : f.type = .inode ∨ f.type = .device) (hi : f.ip = ip) :
    Refs h g L (s.setFile i f) := by
  have := H.setFile (i := i) (f := f) (P := s.pipe) (k := 0) (m := h) (fun e => ?_) (by omega)
    (fun hz => absurd hz hr.2) (fun pi w => ?_) H.kept
  · rwa [bump_zero] at this
  · unfold File.opens bump
    subst hi
    by_cases he : e = f.ip
    · subst he
      simp [hn, ht]
      omega
    · simp [hn, he, Ne.symm he]
  · have hp : f.type ≠ .pipe := by rcases ht with ht | ht <;> rw [ht] <;> decide
    simp [File.isEnd, hn, hp]

theorem Refs.opening {k : File → File} (H : Refs (bump h ip 1) g L s) (hn : (s.ftable i).type = .none)
    (hr : (k (s.ftable i)).ref = (s.ftable i).ref ∧ (k (s.ftable i)).ref ≠ 0)
    (ht : (k (s.ftable i)).type = .inode ∨ (k (s.ftable i)).type = .device) (hi : (k (s.ftable i)).ip = ip)
    (hh : 0 ≤ h ip) : wp (onFile i k) (fun _ t => Refs h g L t ∧ 1 ≤ (t.itable ip).ref) (fun e _ => Fine e) s := by
  have H1 := H.openFile hn hr ht hi
  have hself : (s.setFile i (k (s.ftable i))).ftable i = k (s.ftable i) := setFile_self ..
  have hpos := H1.opened (i := i) (by rwa [hself]) (by rwa [hself, hi])
  rw [hself, hi] at hpos
  exact ⟨H1, hpos⟩

theorem Refs.openAt (hh : ∀ e, 0 ≤ h e) (hg : ∀ i, 0 ≤ g i) (H : Refs (bump h ip 1) g (lockd L ip) s)
    (hL : L ip = false) (omode : Nat) :
    wp (Fs.openAt sb p ip omode) (fun _ t => Refs h g L t) (fun e _ => Fine e) s := by
  unfold Fs.openAt
  rw [wp_bind, wp_view]
  split
  · exact H.openBad hh hL
  · rw [wp_bind]
    refine wp_filealloc (H.openBad hh hL) fun f hz => ?_
    have H1 := H.allocFile hz
    have hn := H.dead f hz
    change wp (fdalloc p f >>= _) _ _ _
    rw [wp_bind]
    refine wp_fdalloc ?_ fun fd hfd => ?_
    · change wp (Fs.fileclose sb f >>= fun _ => Fs.openBad sb ip) _ _ _
      exact wp_then (H1.fileclose (H1.counted (hg f))) fun _ t H2 => H2.openBad hh hL
    · have H2 := H1.fill (i := f) hfd
      rw [bump_cancel (by omega)] at H2
      rw [wp_bind]
      have hf : ((s.setFile f ((s.ftable f).setRef 1)).setProc p
          (((s.setFile f ((s.ftable f).setRef 1)).proc p).setFd fd (some f))).ftable f = (s.ftable f).setRef 1 := by
        rw [setProc_ftable, setFile_self]
      refine wp_post (H2.opening (i := f) (by rw [hf]; exact hn) ⟨?_, ?_⟩ ?_ ?_ (hh ip)) fun _ t ⟨H3, hpos⟩ => ?_
      · split <;> rfl
      · rw [hf]
        split <;> exact fun hc => by cases hc
      · split
        · exact Or.inr rfl
        · exact Or.inl rfl
      · split <;> rfl
      · rw [wp_bind]
        have htrunc : Stable still Fine (doIf (omode &&& O_TRUNC ≠ 0 ∧ (s.itable ip).d.type = T_FILE) (itrunc sb ip)) :=
          .doIf still_itrunc
        refine htrunc.wp (fun _ u hu => ?_) fun _ _ he => he
        exact wp_then ((H3.of_still hu).iunlock hL (by rwa [still_ref hu])) fun _ v H4 => H4.finish fun _ => id

theorem Refs.sysOpen (hh : ∀ e, 0 ≤ h e) (hg : ∀ i, 0 ≤ g i) (H : Refs h g L s) (hp : (s.proc p).cwd.isSome)
    (path : Option Path) (omode : Nat) :
    wp (Fs.sysOpen sb p path omode) (fun _ t => Refs h g L t) (fun e _ => Fine e) s := by
  unfold Fs.sysOpen
  split
  · exact H
  · rename_i path _
    refine wp_files (still_beginOp s) (files_of_still still_beginOp) fun _ t ht hft => ?_
    have H1 := H.of_still ht
    have hpt : (t.proc p).cwd.isSome := by rwa [files_proc hft]
    split
    · refine wp_then (H1.create hh hpt path _ _ _) fun r u H2 => ?_
      cases r with
      | none => exact Refs.finish H2 fun _ => id
      | some ip => exact H2.2.openAt hh hg H2.1 omode
    · refine wp_then (H1.namei hh hpt path) fun r u H2 => ?_
      cases r with
      | none => exact Refs.finish H2 fun _ => id
      | some ip =>
        change Refs (bump h ip 1) g L u at H2
        refine wp_then (H2.ilock (H2.pos (by rw [bump_self]; have := hh ip; omega))) fun _ v ⟨hL, H3⟩ => ?_
        rw [wp_bind, wp_view]
        split
        · exact H3.openBad hh hL
        · exact H3.openAt hh hg hL omode

theorem Refs.sysMake (hh : ∀ e, 0 ≤ h e) (H : Refs h g L s) (hp : (s.proc p).cwd.isSome) (path : Option Path)
    (type major minor : Int16) :
    wp (Fs.sysMake sb p path type major minor) (fun _ t => Refs h g L t) (fun e _ => Fine e) s := by
  unfold Fs.sysMake
  refine wp_files (still_beginOp s) (files_of_still still_beginOp) fun _ t ht hft => ?_
  have H1 := H.of_still ht
  split
  · exact H1.finish fun _ => id
  · rename_i path _
    refine wp_then (H1.create hh (by rwa [files_proc hft]) path _ _ _) fun r u H2 => ?_
    cases r with
    | none => exact Refs.finish H2 fun _ => id
    | some ip =>
      exact wp_then (H2.2.iunlockput H2.1 (hh ip)) fun _ v H3 => H3.finish fun _ => id

theorem isIn_setCwd (x : Proc) (cwd : Option (Fin NINODE)) : (x.setCwd cwd).isIn e = if cwd = some e then 1 else 0 := rfl

theorem wp_cwdOf {Q : Fin NINODE → Sys → Prop} {E : Stop → Sys → Prop} (hp : (s.proc p).cwd = some e) (hQ : Q e s) :
    wp (cwdOf p) Q E s := by
  unfold cwdOf
  rw [wp_bind, wp_view, hp]
  exact hQ

theorem Refs.leave {w : Fin NINODE} (H : Refs h g L s) (hp : (s.proc p).cwd = some w) (new : Option (Fin NINODE))
    (hh : ∀ e, bump h w 1 e = (if new = some e then 1 else 0) + h' e) :
    Refs h' g L (s.setProc p ((s.proc p).setCwd new)) := by
  refine H.setProc (fun e => ?_) fun i => rfl
  have := hh e
  rw [isIn_setCwd, Proc.isIn, hp]
  unfold bump at this
  by_cases he : e = w
  · subst he; simp at this ⊢; omega
  · simp [he, Ne.symm he] at this ⊢; omega

theorem Refs.sysChdir (hh : ∀ e, 0 ≤ h e) (H : Refs h g L s) (hp : (s.proc p).cwd.isSome) (path : Option Path) :
    wp (Fs.sysChdir sb p path) (fun _ t => Refs h g L t) (fun e _ => Fine e) s := by
  obtain ⟨cwd, hcwd⟩ := Option.isSome_iff_exists.mp hp
  unfold Fs.sysChdir
  refine wp_files (still_beginOp s) (files_of_still still_beginOp) fun _ t ht hft => ?_
  have H1 := H.of_still ht
  split
  · exact H1.finish fun _ => id
  · rename_i path _
    refine wp_files (H1.namei hh (by rwa [files_proc hft]) path) (files_namei _ _) fun r u H2 hfu => ?_
    cases r with
    | none => exact Refs.finish H2 fun _ => id
    | some ip =>
      change Refs (bump h ip 1) g L u at H2
      refine wp_files (H2.ilock (H2.pos (by rw [bump_self]; have := hh ip; omega))) files_ilock
        fun _ v ⟨hL, H3⟩ hfv => ?_
      rw [wp_bind, wp_view]
      split
      · exact wp_then (H3.iunlockput hL (hh ip)) fun _ v H4 => H4.finish fun _ => id
      · have hpos : 1 ≤ (v.itable ip).ref := H3.pos (by rw [bump_self]; have := hh ip; omega)
        refine wp_files (H3.iunlock hL hpos) files_iunlock fun _ w H4 hfw => ?_
        have hw : (w.proc p).cwd = some cwd := by rw [files_proc hfw, files_proc hfv, files_proc hfu, files_proc hft, hcwd]
        rw [wp_bind]
        refine wp_cwdOf hw ?_
        have H5 : Refs (bump (bump (bump h ip 1) cwd (-1)) cwd 1) g L w := by rwa [bump_cancel (by omega)]
        refine wp_files H5.iput files_iput fun _ x H6 hfx => ?_
        refine wp_files (still_endOp x) (files_of_still still_endOp) fun _ y hy hfy => ?_
        have hy' : (y.proc p).cwd = some cwd := by rw [files_proc hfy, files_proc hfx, hw]
        rw [wp_bind]
        refine (H6.of_still hy).leave hy' (some ip) fun e => ?_
        rw [bump_cancel (by omega)]
        unfold bump
        by_cases he : e = ip
        · subst he; simp; omega
        · simp [he, Ne.symm he]

theorem Refs.sysExec (hh : ∀ e, 0 ≤ h e) (H : Refs h g L s) (hp : (s.proc p).cwd.isSome) (path : Option Path)
    (reads : List (Nat × Nat)) :
    wp (Fs.sysExec sb p path reads) (fun _ t => Refs h g L t) (fun e _ => Fine e) s := by
  unfold Fs.sysExec
  split
  · exact H
  · rename_i path _
    refine wp_files (still_beginOp s) (files_of_still still_beginOp) fun _ t ht hft => ?_
    rw [wp_bind]
    have hpt : (t.proc p).cwd.isSome := by rwa [files_proc hft]
    refine wp_post ((H.of_still ht).namei hh hpt path) fun r u H1 => ?_
    cases r with
    | none => exact Refs.finish H1 fun _ => id
    | some ip =>
      change Refs (bump h ip 1) g L u at H1
      refine wp_then (H1.ilock (H1.pos (by rw [bump_self]; have := hh ip; omega))) fun _ v ⟨hL, H2⟩ => ?_
      refine H2.seq (still_execReads _) fun _ v H3 => ?_
      exact wp_then (H3.iunlockput hL (hh ip)) fun _ v H4 => H4.finish fun _ => id

theorem wp_argfd {fd : Int} {Q : Option (Fin NOFILE × Fin NFILE) → Sys → Prop} {E : Stop → Sys → Prop}
    (hnone : Q none s) (hsome : ∀ k i, (s.proc p).ofile k = some i → Q (some (k, i)) s) : wp (argfd p fd) Q E s := by
  unfold argfd
  rw [wp_view]
  split
  · rename_i hfd
    cases hi : (s.proc p).ofile ⟨fd.toNat, hfd.2⟩ with
    | none => exact hnone
    | some i => exact hsome _ i hi
  · exact hnone

theorem Refs.sysDup (H : Refs h g L s) (hg : ∀ i, 0 ≤ g i) (fd : Int) :
    wp (Fs.sysDup p fd) (fun _ t => Refs h g L t) (fun e _ => Fine e) s := by
  unfold Fs.sysDup
  rw [wp_bind]
  refine wp_argfd H fun k i hi => ?_
  change wp (fdalloc p i >>= _) _ _ _
  rw [wp_bind]
  refine wp_fdalloc H fun fd hfd => ?_
  have hpos : 1 ≤ (s.ftable i).ref := H.held hi (hg i)
  change wp (Fs.filedup i >>= _) _ _ _
  refine wp_then ((H.fill (i := i) hfd).filedup hpos) fun _ t H1 => ?_
  rw [bump_cancel (by omega)] at H1
  exact H1.2

theorem Refs.sysClose (H : Refs h g L s) (hg : ∀ i, 0 ≤ g i) (fd : Int) :
    wp (Fs.sysClose sb p fd) (fun _ t => Refs h g L t) (fun e _ => Fine e) s := by
  unfold Fs.sysClose
  rw [wp_bind]
  refine wp_argfd H fun k i hi => ?_
  change wp (onProc p (·.setFd k none) >>= _) _ _ _
  have H1 := H.clear hi
  unfold onProc
  rw [wp_bind, wp_change, wp_bind]
  exact H1.fileclose (H1.counted (hg i))

theorem Refs.advance (H : Refs h g L s) {c : Prop} [Decidable c] {k : File → Nat} :
    wp (doIf c (onFile i fun f => f.setOff (k f))) (fun _ t => Refs h g L t ∧ t.itable = s.itable ∧
      (t.ftable i).type = (s.ftable i).type ∧ (t.ftable i).ip = (s.ftable i).ip) (fun e _ => Fine e) s := by
  rw [wp_doIf]
  refine ⟨fun _ => ?_, fun _ => ⟨H, rfl, rfl, rfl⟩⟩
  unfold onFile
  rw [wp_change, setFile_self]
  have := H.sameFile (i := i) (f := (s.ftable i).setOff (k (s.ftable i))) (k := 0) (by simp [File.setOff]) rfl (H.dead i)
  rw [bump_zero] at this
  exact ⟨this, rfl, rfl, rfl⟩

theorem Refs.filestat (hh : ∀ e, 0 ≤ h e) (H : Refs h g L s) (ok : Bool) :
    wp (Fs.filestat sb i ok) (fun _ t => Refs h g L t) (fun e _ => Fine e) s := by
  unfold Fs.filestat
  rw [wp_bind, wp_view]
  split
  · rename_i ht
    refine wp_files (H.ilock (H.opened ht (hh _))) files_ilock fun _ t ⟨hL, H1⟩ hft => ?_
    have hpos := H1.opened (i := i) (by rwa [files_ftable hft]) (hh _)
    rw [files_ftable hft] at hpos
    exact wp_then (H1.iunlock hL hpos) fun _ u H2 => H2
  · exact H

theorem Refs.fileread (hh : ∀ e, 0 ≤ h e) (H : Refs h g L s) (n : Int) (dst : Sink) (r : Int) :
    wp (Fs.fileread sb i n dst r) (fun _ t => Refs h g L t) (fun e _ => Fine e) s := by
  unfold Fs.fileread
  rw [wp_bind, wp_view]
  split
  · exact H
  · cases ht : (s.ftable i).type with
    | pipe => exact H
    | none => exact wp_halt.mpr (by decide)
    | device =>
      change wp (if _ then _ else _) _ _ _
      split
      · exact H
      · exact H
    | inode =>
      refine wp_files (H.ilock (H.opened (Or.inl ht) (hh _))) files_ilock fun _ t hlk hft => ?_
      obtain ⟨hL, H1⟩ := hlk
      have hpos := H1.opened (i := i) (by rw [files_ftable hft]; exact Or.inl ht) (hh _)
      rw [files_ftable hft] at hpos
      rw [wp_bind]
      refine (still_readi _ _ _).wp (fun a u hu => ?_) fun _ _ he => he
      refine wp_then (H1.of_still hu).advance fun _ v hadv => ?_
      obtain ⟨H2, hit, _⟩ := hadv
      exact wp_then (H2.iunlock hL (by rwa [hit, still_ref hu])) fun _ w H3 => H3

theorem Refs.filewriteLoop (hh : ∀ e, 0 ≤ h e) (H : Refs h g L s) (ht : (s.ftable i).type = .inode) (src : Source)
    (n rounds k : Nat) :
    wp (Fs.filewriteLoop sb i src n rounds k) (fun _ t => Refs h g L t) (fun e _ => Fine e) s := by
  induction rounds generalizing s k with
  | zero => exact H
  | succ rounds ih =>
    unfold Fs.filewriteLoop
    split
    · refine wp_files (still_beginOp s) (files_of_still still_beginOp) fun _ t ht' hft => ?_
      have H1 := H.of_still ht'
      rw [wp_bind, wp_view]
      have ht1 : (t.ftable i).type = .inode := by rwa [files_ftable hft]
      refine wp_files (H1.ilock (H1.opened (Or.inl ht1) (hh _))) files_ilock fun _ u ⟨hL, H2⟩ hfu => ?_
      have hpos := H2.opened (i := i) (by rw [files_ftable hfu]; exact Or.inl ht1) (hh _)
      rw [files_ftable hfu] at hpos
      rw [wp_bind]
      refine (still_writei _ _ _).wp (fun r v hv => ?_) fun _ _ he => he
      have hfv : v.ftable = u.ftable := congrArg (fun x => x.2.1) (show v.shape = u.shape from hv)
      refine wp_then (H2.of_still hv).advance fun _ w ⟨H3, hit, hty, _⟩ => ?_
      refine wp_files (H3.iunlock hL (by rwa [hit, still_ref hv])) files_iunlock fun _ x H4 hfx => ?_
      refine wp_files (still_endOp x) (files_of_still still_endOp) fun _ y hy hfy => ?_
      have H5 := H4.of_still hy
      split
      · exact H5
      · exact ih H5 (by rw [files_ftable hfy, files_ftable hfx, hty, hfv, files_ftable hfu, ht1]) _
    · exact H

theorem Refs.filewrite (hh : ∀ e, 0 ≤ h e) (H : Refs h g L s) (n : Int) (src : Source) (r : Int) :
    wp (Fs.filewrite sb i n src r) (fun _ t => Refs h g L t) (fun e _ => Fine e) s := by
  unfold Fs.filewrite
  rw [wp_bind, wp_view]
  split
  · exact H
  · cases ht : (s.ftable i).type with
    | pipe => exact H
    | none => exact wp_halt.mpr (by decide)
    | device =>
      change wp (if _ then _ else _) _ _ _
      split
      · exact H
      · exact H
    | inode =>
      exact wp_then (H.filewriteLoop hh ht src _ _ _) fun _ t H1 => H1

theorem Refs.closeFds {f0 f1 : Fin NFILE} (H : Refs h (bump (bump g f0 1) f1 1) L s) (hg : ∀ i, 0 ≤ g i) :
    wp (do
      Fs.fileclose sb f0
      Fs.fileclose sb f1
      Pure.pure (-1 : Int)) (fun _ t => Refs h g L t) (fun e _ => Fine e) s := by
  rw [bump_comm] at H
  refine wp_then (H.fileclose (H.counted (bump_nonneg hg f0))) fun _ t H1 => ?_
  rw [wp_bind]
  exact H1.fileclose (H1.counted (hg f1))

theorem Refs.sysPipe (H : Refs h g L s) (hg : ∀ i, 0 ≤ g i) (page : Option Nat) (ok : Bool) :
    wp (Fs.sysPipe sb p page ok) (fun _ t => Refs h g L t) (fun e _ => Fine e) s := by
  unfold Fs.sysPipe
  refine wp_then (H.pipealloc hg page) fun r t H1 => ?_
  cases r with
  | none => exact H1
  | some r =>
    obtain ⟨rf, wf⟩ := r
    obtain ⟨hne, hproc, H1⟩ := H1
    change wp (fdalloc p rf >>= _) _ _ _
    rw [wp_bind]
    refine wp_fdalloc (H1.closeFds hg) fun fd0 h0 => ?_
    have H2 := H1.fill (i := rf) h0
    change wp (fdalloc p wf >>= _) _ _ _
    rw [wp_bind]
    refine wp_fdalloc ?_ fun fd1 h1 => ?_
    · have H3 := H2.clear (d := fd0) (i := rf) (by rw [setProc_self]; exact Function.update_self ..)
      rw [bump_cancel (by omega)] at H3
      exact H3.closeFds hg
    · have hfd : fd1 ≠ fd0 := fun hc => by
        rw [hc, setProc_self] at h1
        simp [Proc.setFd] at h1
      have H3 := H2.fill (i := wf) h1
      change wp (if ok = true then _ else _) _ _ _
      split
      · rw [bump_comm, bump_bump (a := wf), bump_comm, bump_cancel (by omega)] at H3
        simpa using H3
      · have H4 := H3.clear (p := p) (d := fd0) (i := rf) (by simp [Proc.setFd, hfd.symm])
        have H5 := H4.clear (p := p) (d := fd1) (i := wf) (by simp [Proc.setFd, hfd])
        rw [bump_comm, bump_cancel (by omega), bump_cancel (by omega)] at H5
        exact H5.closeFds hg

theorem Refs.forkFd {np : Fin NPROC} {fd : Fin NOFILE} (H : Refs h g L s) (hg : ∀ i, 0 ≤ g i)
    (hnp : (s.proc np).ofile fd = none) :
    wp (Fs.forkFd p np fd) (fun _ t => Refs h g L t ∧ (∀ q ≠ np, t.proc q = s.proc q) ∧
      (t.proc np).cwd = (s.proc np).cwd ∧ ∀ k ≠ fd, (t.proc np).ofile k = (s.proc np).ofile k) (fun e _ => Fine e) s := by
  unfold Fs.forkFd
  rw [wp_bind, wp_view]
  split
  · rename_i f hf
    refine wp_then (H.filedup (H.held hf (hg f))) fun _ t ⟨hproc, H1⟩ => ?_
    have H2 := H1.fill (p := np) (d := fd) (i := f) (by rwa [hproc])
    rw [bump_cancel (by omega)] at H2
    refine ⟨H2, fun q hq => ?_, ?_, fun k hk => ?_⟩
    · rw [setProc_proc, if_neg hq, hproc]
    · rw [setProc_self, hproc]; rfl
    · rw [setProc_self, hproc]; exact Function.update_of_ne hk ..
  · exact ⟨H, fun _ _ => rfl, rfl, fun _ _ => rfl⟩

theorem Refs.sysFork (H : Refs h g L s) (hg : ∀ i, 0 ≤ g i) (hp : (s.proc p).cwd.isSome) (np : Option (Fin NPROC)) :
    wp (Fs.sysFork p np) (fun _ t => Refs h g L t) (fun e _ => Fine e) s := by
  unfold Fs.sysFork
  split
  · exact H
  · rename_i np
    obtain ⟨cwd, hcwd⟩ := Option.isSome_iff_exists.mp hp
    rw [wp_bind, wp_view]
    split
    · exact H
    · rename_i hc
      simp only [List.any_eq_true, not_or, not_exists, Option.isSome_iff_exists, List.mem_finRange, true_and] at hc
      have hnone : ∀ fd, (s.proc np).ofile fd = none := fun fd => by
        have := hc.2 fd
        cases hfd : (s.proc np).ofile fd with
        | none => rfl
        | some f => simp [hfd] at this
      have hncwd : (s.proc np).cwd = none := by
        cases hx : (s.proc np).cwd with
        | none => rfl
        | some e => exact absurd hx (hc.1 e)
      have hne : p ≠ np := fun hpn => by rw [hpn, hncwd] at hcwd; cases hcwd
      rw [wp_bind]
      -- the descriptors that are still to be copied are free in the child
      refine wp_post (wp_forM (I := fun rest t => Refs h g L t ∧ t.proc p = s.proc p ∧ (t.proc np).cwd = none ∧
        rest.Nodup ∧ ∀ fd ∈ rest, (t.proc np).ofile fd = none)
        ⟨H, rfl, hncwd, List.nodup_finRange _, fun fd _ => hnone fd⟩ ?_) fun _ t ⟨H1, hpt, hct, _⟩ => ?_
      · intro fd rest t ⟨Ht, hpt, hct, hnd, hfree⟩
        refine wp_post (Ht.forkFd hg (hfree fd List.mem_cons_self)) fun _ u ⟨Hu, hq, hcu, hk⟩ => ?_
        have hnd' := List.nodup_cons.mp hnd
        refine ⟨Hu, (hq p hne).trans hpt, hcu.trans hct, hnd'.2, fun k hkm => ?_⟩
        have hkfd : k ≠ fd := fun hc => hnd'.1 (hc ▸ hkm)
        rw [hk k hkfd]
        exact hfree k (List.mem_cons_of_mem _ hkm)
      · rw [wp_bind]
        refine wp_cwdOf (e := cwd) (by rw [hpt, hcwd]) ?_
        refine wp_files H1.idup files_onInode fun _ u H2 hfu => ?_
        rw [wp_bind]
        refine H2.setProc (p := np) (fun e => ?_) fun i => rfl
        rw [isIn_setCwd, Proc.isIn, files_proc hfu, hct]
        unfold bump
        by_cases he : e = cwd
        · subst he; simp; omega
        · simp [he, Ne.symm he]

theorem Refs.exitFd {fd : Fin NOFILE} (H : Refs h g L s) (hg : ∀ i, 0 ≤ g i) :
    wp (Fs.exitFd sb p fd) (fun _ t => Refs h g L t ∧ (t.proc p).cwd = (s.proc p).cwd) (fun e _ => Fine e) s := by
  unfold Fs.exitFd
  rw [wp_bind, wp_view]
  split
  · rename_i f hf
    have H1 : Refs h (bump (bump g f (-1)) f 1) L s := by rwa [bump_cancel (by omega)]
    refine wp_then (procs_fileclose.and_wp (H1.fileclose (H.held hf (hg f)))) fun _ t ⟨H2, hproc⟩ => ?_
    have hproc : t.proc = s.proc := hproc
    have H3 := H2.clear (p := p) (d := fd) (i := f) (by rw [hproc, hf])
    rw [bump_cancel (by omega)] at H3
    refine ⟨H3, ?_⟩
    rw [setProc_self, hproc]
    rfl
  · exact ⟨H, rfl⟩

theorem Refs.sysExit (H : Refs h g L s) (hg : ∀ i, 0 ≤ g i) (hp : (s.proc p).cwd.isSome) :
    wp (Fs.sysExit sb p) (fun _ t => Refs h g L t) (fun e _ => Fine e) s := by
  obtain ⟨cwd, hcwd⟩ := Option.isSome_iff_exists.mp hp
  unfold Fs.sysExit
  rw [wp_bind, wp_stopIf]
  refine ⟨fun _ => by decide, fun _ => ?_⟩
  refine wp_then (wp_forM (I := fun _ t => Refs h g L t ∧ (t.proc p).cwd = some cwd) ⟨H, hcwd⟩ ?_)
    fun _ t ⟨H1, ht⟩ => ?_
  · intro fd _ t ⟨Ht, ht⟩
    exact wp_post (Ht.exitFd hg) fun _ u ⟨Hu, hu⟩ => ⟨Hu, hu.trans ht⟩
  · refine wp_files (still_beginOp t) (files_of_still still_beginOp) fun _ u hu hfu => ?_
    have hcu : (u.proc p).cwd = some cwd := by rw [files_proc hfu, ht]
    rw [wp_bind]
    refine wp_cwdOf hcu ?_
    have H2 : Refs (bump (bump h cwd (-1)) cwd 1) g L u := by
      rw [bump_cancel (by omega)]
      exact H1.of_still hu
    refine wp_files H2.iput files_iput fun _ v H3 hfv => ?_
    refine wp_files (still_endOp v) (files_of_still still_endOp) fun _ w hw hfw => ?_
    rw [wp_bind]
    refine (H3.of_still hw).leave (w := cwd) (by rw [files_proc hfw, files_proc hfv, hcu]) none fun e => ?_
    rw [bump_cancel (by omega)]
    simp

abbrev Exact (s : Sys) : Prop := Refs (fun _ => 0) (fun _ => 0) (fun _ => false) s

theorem Exact.withFd (H : Exact s) {fd : Int} {f : Fin NFILE → M Int}
    (hf : ∀ i, wp (f i) (fun _ t => Exact t) (fun e _ => Fine e) s) :
    wp (do
      match ← argfd p fd with
      | none => Pure.pure (-1)
      | some (_, i) => f i) (fun _ t => Exact t) (fun e _ => Fine e) s := by
  rw [wp_bind]
  exact wp_argfd H fun k i _ => hf i

theorem Exact.call (H : Exact s) (hp : (s.proc p).cwd.isSome) (c : Call) :
    wp (Fs.call sb p c) (fun _ t => Exact t) (fun e _ => Fine e) s := by
  have hh : ∀ e : Fin NINODE, (0 : Int) ≤ (fun _ => 0) e := fun _ => le_refl _
  have hg : ∀ i : Fin NFILE, (0 : Int) ≤ (fun _ => 0) i := fun _ => le_refl _
  cases c with
  | «open» path omode => exact Refs.sysOpen hh hg H hp path omode
  | mkdir path => exact Refs.sysMake hh H hp path _ _ _
  | mknod path major minor => exact Refs.sysMake hh H hp path _ _ _
  | link old new => exact Refs.sysLink hh H hp old new
  | unlink path => exact Refs.sysUnlink hh H hp path
  | chdir path => exact Refs.sysChdir hh H hp path
  | exec path reads => exact Refs.sysExec hh H hp path reads
  | dup fd => exact Refs.sysDup H hg fd
  | pipe page ok => exact Refs.sysPipe H hg page ok
  | read fd n dst r => exact H.withFd fun i => Refs.fileread hh H n dst r
  | write fd n src r => exact H.withFd fun i => Refs.filewrite hh H n src r
  | fstat fd ok => exact H.withFd fun i => Refs.filestat hh H ok
  | close fd => exact Refs.sysClose H hg fd
  | fork np => exact Refs.sysFork H hg hp np
  | exit => exact Refs.sysExit H hg hp

theorem Exact.step {a : Fin NPROC × Call} (H : Exact s) (hs : Fs.step sb s a = .ok t) : Exact t := by
  unfold Fs.step at hs
  split at hs
  · cases hs
  · rename_i hp
    have hcall : wp (Fs.call sb a.1 a.2) (fun _ t => Exact t) (fun e _ => Fine e) s :=
      Exact.call H (Option.isSome_iff_ne_none.mpr (by simpa using hp)) a.2
    unfold wp at hcall
    split at hs
    · rename_i r u hr
      cases hs
      rw [hr] at hcall
      exact hcall
    · cases hs

theorem Exact.stop {a : Fin NPROC × Call} {e : Stop} (H : Exact s) (hp : (s.proc a.1).cwd.isSome)
    (hs : Fs.step sb s a = .error e) : Fine e := by
  unfold Fs.step at hs
  split at hs
  · rename_i hc
    rw [Option.isNone_iff_eq_none] at hc
    rw [hc] at hp
    cases hp
  · have hcall : wp (Fs.call sb a.1 a.2) (fun _ t => Exact t) (fun e _ => Fine e) s := Exact.call H hp a.2
    unfold wp at hcall
    split at hs
    · cases hs
    · rename_i e' u hr
      cases hs
      rw [hr] at hcall
      exact hcall

/-- After any calls every reference count is exact, and an end of a pipe is open if and only if exactly one file
    stands for it. No call stops in the panics of `filedup`, `fileclose`, `ilock` or `iunlock`, nor at a freed pipe.
    -/
theorem reference_counts_exact (h : Reach Exact (step sb) (fun _ _ => True) s) :
    (∀ i, (s.ftable i).ref = s.fdCount i) ∧
    (∀ i, (s.ftable i).ref = 0 → (s.ftable i).type = .none) ∧
    (∀ e, (s.itable e).ref = s.openCount e + s.cwdCount e) ∧
    (∀ pi x w, s.pipe pi = some x → (x.isOpen w = true ↔ s.endCount pi w = 1)) ∧
    (∀ pi x, s.pipe pi = some x → ∃ w, s.endCount pi w = 1) ∧
    (∀ pi w, s.pipe pi = none → s.endCount pi w = 0) ∧
    ∀ a e, (s.proc a.1).cwd.isSome → step sb s a = .error e → Fine e := by
  have H : Exact s := h.invariant (fun _ => id) fun _ _ _ H _ hs => H.step hs
  have hpip : ∀ pi x w, s.pipe pi = some x → (x.isOpen w = true ↔ s.endCount pi w = 1) := fun pi x w hx => by
    rw [H.pip pi w, hx]
    cases hw : x.isOpen w <;> simp [hw]
  refine ⟨fun i => ?_, H.dead, fun e => ?_, hpip, fun pi x hx => ?_, fun pi w hx => ?_, fun a e => H.stop⟩
  · rw [H.fil i, add_zero]
  · rw [H.ino e, add_zero]
  · rcases H.kept pi x hx with hr | hw
    · exact ⟨false, (hpip pi x false hx).mp hr⟩
    · exact ⟨true, (hpip pi x true hx).mp hw⟩
  · rw [H.pip pi w, hx]
    rfl

/-- After `userinit`: the first process is in the root directory, and nothing is open. -/
structure Booted (s : Sys) : Prop where
  files : ∀ i, (s.ftable i).ref = 0 ∧ (s.ftable i).type = .none
  pipes : ∀ pi, s.pipe pi = none
  fds : ∀ p fd, (s.proc p).ofile fd = none
  cwd : ∀ p, (s.proc p).cwd = if p.val = 0 then some 0 else none
  inodes : ∀ e, (s.itable e).ref = (if e = 0 then 1 else 0) ∧ (s.itable e).locked = false

theorem Booted.exact (H : Booted s) : Exact s where
  ino e := by
    have hopen : s.openCount e = 0 := Finset.sum_eq_zero fun i _ => by simp [File.opens, (H.files i).2]
    have hcwd : s.cwdCount e = if e = 0 then 1 else 0 := by
      let init : Fin NPROC := ⟨0, by decide⟩
      have hp : ∀ p, (s.proc p).isIn e = if p = init then (if e = 0 then 1 else 0) else 0 := fun p => by
        unfold Proc.isIn
        rw [H.cwd p]
        by_cases hp : p = init
        · simp [hp, init, eq_comm]
        · have : p.val ≠ 0 := fun hc => hp (Fin.ext hc)
          simp [hp, this]
      unfold Sys.cwdCount
      rw [Finset.sum_congr rfl fun p _ => hp p, Finset.sum_ite_eq' Finset.univ init, if_pos (Finset.mem_univ _)]
    rw [(H.inodes e).1, hopen, hcwd]
    omega
  fil i := by
    have hfd : s.fdCount i = 0 := Finset.sum_eq_zero fun p _ => Finset.sum_eq_zero fun fd _ => by simp [H.fds p fd]
    rw [(H.files i).1, hfd]
    rfl
  dead i _ := (H.files i).2
  pip pi w := by
    rw [H.pipes pi]
    exact Finset.sum_eq_zero fun i _ => by simp [File.isEnd, (H.files i).2]
  kept pi x hx := by
    rw [H.pipes pi] at hx
    cases hx
  lock e := (H.inodes e).2

def small : Superblock := ⟨43, 8, 16, 31, 2, 33, 34⟩

def blank : Disk := fun b => if b = 34 then (List.range 35).foldl setBit Bytes.zero else Bytes.zero

def rootOnly : Disk :=
  Function.update blank 33 (inodeBlock small blank ROOTINO { Dinode.zero with type := T_DIR, nlink := 1 })

def boot (disk : Disk) : Sys where
  disk := disk
  lh := []
  outstanding := 0
  itable e := ⟨ROOTINO, if e = 0 then 1 else 0, false, false, .zero⟩
  ftable _ := ⟨.none, 0, false, false, 0, 0, 0, 0⟩
  proc p := ⟨fun _ => none, if p.val = 0 then some 0 else none⟩
  pipe _ := none
  ghost := ⟨[], true, [], fun _ => 0, fun _ _ => 0⟩

theorem booted_boot (disk : Disk) : Booted (boot disk) :=
  ⟨fun _ => ⟨rfl, rfl⟩, fun _ => rfl, fun _ _ => rfl, fun _ => rfl, fun _ => ⟨rfl, rfl⟩⟩

theorem reference_counts_fork : ∃ s : Sys, (s.itable 0).ref = 3 ∧ (s.ftable 1).ref = 1 ∧ (s.ftable 2).ref = 2 ∧
    s.openCount 0 + s.cwdCount 0 = 3 ∧ s.fdCount 2 = 2 := by
  let init : Fin NPROC := ⟨0, by decide⟩
  let child : Fin NPROC := ⟨1, by decide⟩
  let calls : List (Fin NPROC × Call) :=
    [(init, .open (some [slash]) O_RDONLY), (init, .pipe (some 7) true), (init, .fork (some child)), (child, .close 1)]
  have h : (run (step small) (fun _ _ => true) (boot rootOnly) calls).any (fun s =>
      (s.itable 0).ref = 3 ∧ (s.ftable 1).ref = 1 ∧ (s.ftable 2).ref = 2) = true := by
    decide +kernel
  obtain ⟨s, hrun, hs⟩ := (Option.any_eq_true _ _).mp h
  obtain ⟨h0, h1, h2⟩ := of_decide_eq_true hs
  have hmain := reference_counts_exact (Reach.of_run (fun _ _ _ => trivial) _ (.init (booted_boot _).exact) hrun)
  exact ⟨s, h0, h1, h2, (hmain.2.2.1 0).symm.trans h0, (hmain.1 2).symm.trans h2⟩

end Xv6.Fs
