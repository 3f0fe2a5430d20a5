import Xv6.Fs.Frames
import Xv6.Fs.Paths
import Xv6.Kern.Basic
import Xv6.Vm.Contents

/-! `exec` of `kernel/exec.c` as it reads the executable from the file system, in a transaction. -/

namespace Xv6.Kern
open Lib

section
variable (sb : Fs.Superblock) (L : Vm.Layout)

/-- `offset` and `sz` are of type `uint`. -/
def loadseg (pagetable va : Nat) (ip : Fin NINODE) (offset sz : Nat) : M Int := do
  let r ← forUp (.vm .stuck) PGSIZE (2 ^ 32) 0 sz fun i => do
    let pa ← vm (Vm.walkaddr pagetable ((va + i) % 2 ^ 64))
    if pa = 0 then halt (.vm (.panic "loadseg: address should exist"))
    let n := if sz - i < PGSIZE then sz - i else PGSIZE
    let (r, l) ← fs (Fs.readi sb ip Fs.Sink.kernel ((offset + i) % 2 ^ 32) n)
    vm (change fun s => s.setBytes pa l)
    if r ≠ n then pure (some (-1)) else pure none
  pure (r.getD 0)

/-- The loop over the program headers, from the one at file offset `off`. It returns the size so far, and `false`
    for `goto bad`. -/
def loadSegments (pagetable : Nat) (ip : Fin NINODE) : Nat → Nat → Nat → M (Nat × Bool)
  | 0, _, sz => pure (sz, true)
  | rounds + 1, off, sz => do
    let (r, l) ← fs (Fs.readi sb ip Fs.Sink.kernel off Vm.Proghdr.size)
    if r ≠ Vm.Proghdr.size then pure (sz, false)
    else
      let ph := Vm.Proghdr.ofBytes l
      let next := (off + Vm.Proghdr.size) % 2 ^ 32
      if ph.type ≠ Vm.ELF_PROG_LOAD then loadSegments pagetable ip rounds next sz
      else if ph.memsz < ph.filesz then pure (sz, false)
      else if (ph.vaddr + ph.memsz) % 2 ^ 64 < ph.vaddr then pure (sz, false)
      else if ph.vaddr % PGSIZE ≠ 0 then pure (sz, false)
      else
        let sz1 ← vm (Vm.uvmalloc L pagetable sz ((ph.vaddr + ph.memsz) % 2 ^ 64) (Vm.flags2perm ph.flags))
        if sz1 = 0 then pure (sz, false)
        else
          let r ← loadseg sb pagetable ph.vaddr ip (ph.off % 2 ^ 32) (ph.filesz % 2 ^ 32)
          if r < 0 then pure (sz1, false) else loadSegments pagetable ip rounds next sz1

/-- `bad:` with an inode -/
def execRelease (ip : Fin NINODE) : M Int := do
  fs (Fs.iunlockput sb ip)
  fs Fs.endOp
  pure (-1)

def exec (p : Fin NPROC) (path : Fs.Path) (argv : List Nat) : M Int := do
  fs Fs.beginOp
  match ← fs (Fs.namei sb p path) with
  | none =>
    fs Fs.endOp
    pure (-1)
  | some ip =>
    fs (Fs.ilock sb ip)
    let (r, l) ← fs (Fs.readi sb ip Fs.Sink.kernel 0 Vm.Elfhdr.size)
    if r ≠ Vm.Elfhdr.size then execRelease sb ip
    else
      let elf := Vm.Elfhdr.ofBytes l
      if elf.magic ≠ Vm.ELF_MAGIC then execRelease sb ip
      else
        let x ← view fun s => s.mem.proc p
        let pagetable ← vm (Vm.procPagetable L x.trapframe)
        if pagetable = 0 then execRelease sb ip
        else
          let (sz, ok) ← loadSegments sb L pagetable ip elf.phnum (elf.phoff % 2 ^ 32) 0
          if !ok then
            vm (Vm.procFreepagetable L pagetable sz)
            execRelease sb ip
          else
            fs (Fs.iunlockput sb ip)
            fs Fs.endOp
            vm (Vm.execStack L p path argv pagetable sz elf.entry)

end

/-- With the files as in `f`, `m` does to memory what `m'` does, and nothing else. -/
def Sim {α : Type} (f : Fs.Sys) (m : M α) (m' : Vm.VmM α) : Prop := ∀ mem, m ⟨mem, f⟩ = vm m' ⟨mem, f⟩

namespace Sim
variable {α β : Type} {f : Fs.Sys} {m : M α} {m' : Vm.VmM α}

theorem wp (h : Sim f m m') {Q : α → Sys → Prop} {E : Stop → Sys → Prop} {s : Sys} (hs : s.fs = f)
    (hm : Lib.wp m' (fun a t => Q a { s with mem := t }) (fun e t => E (.vm e) { s with mem := t }) s.mem) : Lib.wp m Q E s := by
  subst hs
  rw [← wp_vm] at hm
  unfold Lib.wp at hm ⊢
  rwa [show m s = vm m' s from h s.mem]

theorem mem : Sim f (vm m') m' := fun _ => rfl

theorem pure (a : α) : Sim f (Pure.pure a) (Pure.pure a) := fun _ => rfl

theorem halt {e : Vm.Stop} : Sim f (Lib.halt (.vm e) : M α) (Lib.halt e) := fun _ => rfl

theorem bind {k : α → M β} {k' : α → Vm.VmM β} (hm : Sim f m m') (hk : ∀ a, Sim f (k a) (k' a)) :
    Sim f (m >>= k) (m' >>= k') := by
  intro mem
  change EStateM.bind m k ⟨mem, f⟩ = vm (EStateM.bind m' k') ⟨mem, f⟩
  unfold EStateM.bind
  rw [hm mem]
  unfold vm
  dsimp only
  cases m' mem with
  | ok a t => exact hk a t
  | error e t => rfl

theorem read {r : Fs.M β} {b : β} (h : r f = .ok b f) {k : β → M α} (hk : Sim f (k b) m') : Sim f (fs r >>= k) m' := by
  intro mem
  change EStateM.bind (fs r) k ⟨mem, f⟩ = vm m' ⟨mem, f⟩
  unfold EStateM.bind fs
  rw [h]
  exact hk mem

theorem ite {c c' : Prop} [Decidable c] [Decidable c'] {m₁ m₂ : M α} {m₁' m₂' : Vm.VmM α} (hc : c ↔ c') (h₁ : Sim f m₁ m₁')
    (h₂ : Sim f m₂ m₂') : Sim f (if c then m₁ else m₂) (if c' then m₁' else m₂') := by
  by_cases h : c
  · rw [if_pos h, if_pos (hc.mp h)]
    exact h₁
  · rw [if_neg h, if_neg fun h' => h (hc.mpr h')]
    exact h₂

theorem when {c : Prop} [Decidable c] {m : M PUnit} {m' : Vm.VmM PUnit} {k : PUnit → M β} {k' : PUnit → Vm.VmM β}
    (hm : Sim f m m') (hk : ∀ a, Sim f (k a) (k' a)) :
    Sim f (if c then m >>= k else k ()) (if c then m' >>= k' else k' ()) :=
  ite Iff.rfl (bind hm hk) (hk ())

theorem upto {e : Vm.Stop} {d w hi : Nat} {body : Nat → M (Option β)} {body' : Nat → Vm.VmM (Option β)}
    (h : ∀ a, Sim f (body a) (body' a)) (fuel a : Nat) :
    Sim f (Lib.upto (.vm e) d w hi body fuel a) (Lib.upto e d w hi body' fuel a) := by
  induction fuel generalizing a with
  | zero => exact halt
  | succ fuel ih =>
    refine ite Iff.rfl (bind (h a) fun r => ?_) (pure none)
    cases r with
    | none => exact ih _
    | some b => exact pure _

end Sim

section
variable {sb : Fs.Superblock} {L : Vm.Layout} {ip : Fin NINODE} {f : Fs.Sys} {l : List UInt8}

def image (l : List UInt8) : Vm.File where
  readi := Fs.readBytes l
  length_le off n := by
    unfold Fs.readBytes
    split
    · exact Nat.zero_le n
    · exact List.length_take_le ..

def Reads (sb : Fs.Superblock) (f : Fs.Sys) (ip : Fin NINODE) (l : List UInt8) : Prop :=
  ∀ off n, off < 2 ^ 32 → n < 2 ^ 32 →
    Fs.readi sb ip Fs.Sink.kernel off n f = .ok (((Fs.readBytes l off n).length : Int), Fs.readBytes l off n) f

theorem Reads.wp (h : Reads sb f ip l) {off n : Nat} (hoff : off < 2 ^ 32) (hn : n < 2 ^ 32) {Q : Int × List UInt8 → Fs.Sys → Prop}
    {E : Fs.Stop → Fs.Sys → Prop} (hQ : Q (((Fs.readBytes l off n).length : Int), Fs.readBytes l off n) f) :
    Lib.wp (Fs.readi sb ip Fs.Sink.kernel off n) Q E f := by
  unfold Lib.wp
  rw [h off n hoff hn]
  exact hQ

theorem sim_loadseg (h : Reads sb f ip l) {p va off sz : Nat} :
    Sim f (loadseg sb p va ip off sz) (Vm.loadseg p va (image l) off sz) := by
  refine .bind (.upto (fun a => ?_) _ _) fun r => .pure _
  have hlt : (if sz - a < PGSIZE then sz - a else PGSIZE) < 2 ^ 32 := by
    unfold PGSIZE
    split <;> omega
  have hread := h ((off + a) % 2 ^ 32) _ (Nat.mod_lt _ (by decide)) hlt
  refine .bind .mem fun pa => .when .halt fun _ => .read hread (.bind .mem fun _ => ?_)
  exact .ite (not_congr Int.ofNat_inj) (.pure _) (.pure _)

theorem sim_loadSegments (h : Reads sb f ip l) {p rounds off sz : Nat} (hoff : off < 2 ^ 32) :
    Sim f (loadSegments sb L p ip rounds off sz) (Vm.loadSegments L p (image l) rounds off sz) := by
  induction rounds generalizing off sz with
  | zero => exact .pure _
  | succ rounds ih =>
    unfold loadSegments Vm.loadSegments
    refine .read (h off _ hoff (by decide)) (.ite (not_congr Int.ofNat_inj) (.pure _) ?_)
    refine .ite Iff.rfl (ih (Nat.mod_lt _ (by decide))) (.ite Iff.rfl (.pure _) (.ite Iff.rfl (.pure _) ?_))
    refine .ite Iff.rfl (.pure _) (.bind .mem fun sz1 => .ite Iff.rfl (.pure _) ?_)
    exact .bind (sim_loadseg h) fun r => .ite Iff.rfl (.pure _) (ih (Nat.mod_lt _ (by decide)))

end

section
open Fs
variable {sb : Superblock} {s u : Fs.Sys} {ip : Fin NINODE}

/-- All that a call held in the file system is given back. -/
structure Released (s t : Fs.Sys) : Prop where
  outstanding : t.outstanding = s.outstanding
  ref : ∀ e, (t.itable e).ref = (s.itable e).ref
  unlocked : ∀ e, (t.itable e).locked = false
  disk : t.disk = s.disk

def begun (s : Fs.Sys) : Fs.Sys := { s with outstanding := s.outstanding + 1 }

theorem begun_wellFormed (h : WellFormed sb s) : WellFormed sb (begun s) :=
  have live : ∀ i, Live sb s i → Live sb (begun s) i := fun _ hi => ⟨hi.bound, hi.type, hi.kept⟩
  ⟨h.uniq, h.refs, h.unlocked, h.full, h.whole, fun i hi ht de hde hne => live _ (h.entries i hi ht de hde hne),
    fun e he => live _ (h.table e he), live _ h.root⟩

theorem wp_endOp (hw : Walk sb (begun s) u (fun _ => 0) none) (ho : u.outstanding = s.outstanding + 1) :
    wp endOp (fun _ t => Released s t) (fun _ _ => False) u := by
  have hout : u.outstanding - 1 = s.outstanding := by omega
  have href : ∀ e, (u.itable e).ref = (s.itable e).ref := fun e => (hw.ref e).trans (Int.add_zero _)
  have hlock : ∀ e, (u.itable e).locked = false := fun e => (hw.locked e).trans (by simp)
  unfold endOp
  simp only [wp_bind, wp_change, wp_view, wp_doIf]
  exact ⟨fun _ => ⟨hout, href, hlock, hw.disk⟩, fun _ => ⟨hout, href, hlock, hw.disk⟩⟩

theorem wp_iunlockput_endOp (hs : WellFormed sb (begun s)) (hw : Walk sb (begun s) u (one ip) (some ip))
    (ho : u.outstanding = s.outstanding + 1) :
    wp (iunlockput sb ip) (fun _ u' => wp endOp (fun _ t => Released s t) (fun _ _ => False) u') (fun _ _ => False) u := by
  have hstable : Stable opened (fun _ => True) (iunlockput sb ip) :=
    stable_iunlockput opened_logWrite opened_onInode opened_onGhost
  refine wp_post (hstable.and_wp (hw.iunlockput hs (by rw [one_self]; decide))) fun _ u' ⟨⟨hu', _⟩, ho'⟩ => ?_
  exact wp_endOp (hu'.congr fun e => by omega) (Eq.trans ho' ho)

theorem reads (hs : WellFormed sb s) (hw : Walk sb s u (one ip) (some ip)) (hv : (u.itable ip).valid = true) :
    Reads sb u ip (content u.disk (u.itable ip).d) := by
  intro off n hoff hn
  have href := hw.pos hs (e := ip) (by rw [one_self]; decide)
  have hfull : ∀ x < (u.itable ip).d.size.toNat, fileBlock u.disk (u.itable ip).d (x / BSIZE) ≠ 0 := by
    rw [hw.d_eq hs href hv, hw.disk]
    intro x hx
    exact hs.full _ (hw.live ip href).bound _ (Nat.lt_of_le_of_lt (Nat.div_mul_le_self x BSIZE) hx)
  have hread : wp (readi sb ip Sink.kernel off n) _ _ u := wp_readi_full hfull hoff hn
  unfold wp at hread
  cases hrun : readi sb ip Sink.kernel off n u with
  | ok r t =>
    rw [hrun] at hread
    rw [hread.1, hread.2]
  | error e t =>
    rw [hrun] at hread
    exact hread.elim

end

section
open Vm
variable {L : Layout} {s t : Vm.Sys} {T : Temps} {r : Int}

structure Same (s t : Vm.Sys) : Prop where
  proc : ∀ i, t.proc i = s.proc i
  pte : ∀ i v, (s.proc i).state ≠ .unused → pteOf t i v = pteOf s i v
  user : ∀ i v, (s.proc i).state ≠ .unused → userPage t i v = userPage s i v
  frame : ∀ i, (s.proc i).state ≠ .unused → t.page (s.proc i).trapframe = s.page (s.proc i).trapframe
  free : ∀ pa, IsFree t pa ↔ IsFree s pa

theorem execed_same (h : Inv L s T) (htab : T.tab = none) (he : Execed L (snapAll s T) s T r t) (hr : r < 0) : Same s t := by
  obtain ⟨hrep, hc⟩ := he.failed hr
  have hproc : ∀ i, t.proc i = s.proc i := fun i => by rw [hc.kept.proc]
  have hsince : Since L T s t := ⟨⟨_, .refl, hrep⟩, fun i _ => hproc i, hc.kept.pipes, hc.kept.kernel⟩
  refine ⟨hproc, fun i v hi => hsince.pteOf hi h.slots, fun i v hi => hsince.userPage h hi, fun i hi => ?_, fun pa => ?_⟩
  · have hframe : own s T (.frame i) = some (s.proc i).trapframe := by
      simp only [own, ptr, if_neg ((h.slots i).used hi).2.1]
    exact hsince.page hframe (by rintro _ _ _ ⟨⟩)
  · exact hsince.isFree_iff htab h he.inv fun i hi => by rw [hproc, hi]

end

section
open Vm
variable {sb : Fs.Superblock} {L : Layout} {s : Sys} {T : Temps} {p : Fin NPROC} {path : Fs.Path} {argv : List Nat}

structure Startable (sb : Fs.Superblock) (s : Fs.Sys) (p : Fin NPROC) : Prop where
  wellFormed : Fs.WellFormed sb s
  spare : Fs.TwoFree s
  cwd : ∃ e, (s.proc p).cwd = some e ∧ 0 < (s.itable e).ref
  room : s.lh.length + (s.outstanding + 1) * MAXOPBLOCKS ≤ LOGSIZE

def executable (sb : Fs.Superblock) (s : Fs.Sys) (cwd : Fin NINODE) (path : Fs.Path) : Option (List UInt8) :=
  (Fs.resolve sb s (Fs.startOf s cwd path) (Fs.pieces path)).map fun i => Fs.content s.disk (Fs.inodeOf sb s i)

theorem resolve_begun {f : Fs.Sys} {i : Nat} {names : List (List UInt8)} :
    Fs.resolve sb (begun f) i names = Fs.resolve sb f i names := by
  induction names generalizing i with
  | nil => rfl
  | cons name rest ih =>
    rw [Fs.resolve, Fs.resolve]
    simp only [ih]
    rfl

theorem wp_execRelease {ip : Fin NINODE} {t : Sys} {Q : Int → Vm.Sys → Prop} (hs : Fs.WellFormed sb (begun s.fs))
    (hw : Fs.Walk sb (begun s.fs) t.fs (Fs.one ip) (some ip)) (ho : t.fs.outstanding = s.fs.outstanding + 1) (hQ : Q (-1) t.mem) :
    wp (execRelease sb ip) (fun r t => Q r t.mem ∧ Released s.fs t.fs) (fun e _ => Looked e) t := by
  unfold execRelease
  simp only [wp_bind, wp_fs]
  refine wp_mono (wp_iunlockput_endOp hs hw ho) (fun _ u hu => ?_) fun _ _ hf => hf.elim
  exact wp_mono hu (fun _ u' hu' => ⟨hQ, hu'⟩) fun _ _ hf => hf.elim

theorem wp_exec_refines {Q : Int → Vm.Sys → Prop} {cwd : Fin NINODE} (hr : Startable sb s.fs p) (hcwd : (s.fs.proc p).cwd = some cwd)
    (hQ : wp (Vm.exec L p (fun path => (executable sb s.fs cwd path).map image) path argv) Q (Vm.Looked L) s.mem) :
    wp (exec sb L p path argv) (fun r t => Q r t.mem ∧ Released s.fs t.fs) (fun e _ => Looked e) s := by
  obtain ⟨e, he, href⟩ := hr.cwd
  obtain rfl : e = cwd := Option.some.inj (he.symm.trans hcwd)
  have hs := begun_wellFormed hr.wellFormed
  unfold exec
  rw [wp_bind, wp_fs]
  unfold Fs.beginOp
  simp only [wp_bind, wp_view, wp_stopIf, wp_change]
  refine ⟨fun hgt => absurd hr.room (by omega), fun _ => ?_⟩
  change wp (fs (Fs.namei sb p path)) _ _ { s with fs := begun s.fs }
  rw [wp_fs]
  refine wp_mono ((Fs.stable_namei Fs.opened_logWrite Fs.opened_onInode Fs.opened_onGhost p path).and_wp
    (Fs.wp_namei hs hr.spare hcwd href path)) (fun r u hru => ?_) fun _ _ hf => hf.elim
  obtain ⟨⟨hres, hw⟩, ho⟩ := hru
  rw [resolve_begun] at hres
  unfold Vm.exec at hQ
  dsimp only at hQ
  cases r with
  | none =>
    have hnone : executable sb s.fs e path = none := by
      unfold executable
      rw [show Fs.resolve sb s.fs (Fs.startOf s.fs e path) (Fs.pieces path) = none from hres.symm]
      rfl
    rw [hnone] at hQ
    simp only [wp_bind, wp_fs]
    exact wp_mono (wp_endOp (hw.congr fun e => by simp) ho) (fun _ u' hu' => ⟨hQ, hu'⟩) fun _ _ hf => hf.elim
  | some ip =>
    replace hw : Fs.Walk sb (begun s.fs) u (Fs.one ip) none := hw.congr fun e => by
      simp only [Fs.one, Option.some.injEq, eq_comm]
    dsimp only
    rw [wp_bind, wp_fs]
    refine wp_mono ((Fs.stable_ilock Fs.opened_onInode).and_wp (hw.ilock hs (by rw [Fs.one_self]; decide)))
      (fun _ u' hlk => ?_) fun _ _ hf => hf.elim
    obtain ⟨⟨hw', hv, hinum⟩, ho'⟩ := hlk
    replace ho : u'.outstanding = s.fs.outstanding + 1 := Eq.trans ho' ho
    have hreads := reads hs hw' hv
    have hfound : executable sb s.fs e path = some (Fs.content u'.disk (u'.itable ip).d) := by
      unfold executable
      rw [show Fs.resolve sb s.fs (Fs.startOf s.fs e path) (Fs.pieces path) = some (u'.itable ip).inum from
        hres.symm.trans (congrArg some hinum.symm), hw'.d_eq hs (hw'.pos hs (by rw [Fs.one_self]; decide)) hv, hw'.disk]
      rfl
    rw [hfound] at hQ
    generalize Fs.content u'.disk (u'.itable ip).d = l at hreads hQ
    have hbad : ∀ t : Vm.Sys, Q (-1) t → wp (execRelease sb ip) (fun r t => Q r t.mem ∧ Released s.fs t.fs)
        (fun e _ => Looked e) ⟨t, u'⟩ := fun t hq => wp_execRelease hs hw' ho hq
    rw [wp_bind, wp_fs]
    refine hreads.wp (by decide) (by decide) ?_
    dsimp only [Option.map_some] at hQ ⊢
    rw [show (image l).readi 0 Elfhdr.size = Fs.readBytes l 0 Elfhdr.size from rfl, wp_ite] at hQ
    rw [wp_ite]
    by_cases hlen : (Fs.readBytes l 0 Elfhdr.size).length = Elfhdr.size
    · rw [if_neg (not_not.mpr hlen)] at hQ
      rw [if_neg (not_not.mpr (Int.ofNat_inj.mpr hlen))]
      rw [wp_ite] at hQ ⊢
      split at hQ
      · next hmagic =>
        rw [if_pos hmagic]
        exact hbad _ hQ
      next hmagic =>
      rw [if_neg hmagic]
      rw [wp_bind, wp_view, wp_bind] at hQ ⊢
      rw [wp_vm]
      refine wp_mono hQ (fun q s1 hq => ?_) fun _ _ he => looked he
      rw [wp_ite] at hq ⊢
      split at hq
      · next hzero =>
        rw [if_pos hzero]
        exact hbad _ hq
      next hzero =>
      rw [if_neg hzero]
      rw [wp_bind] at hq ⊢
      refine (sim_loadSegments hreads (Nat.mod_lt _ (by decide))).wp rfl ?_
      refine wp_mono hq (fun r s2 h2 => ?_) fun _ _ he => looked he
      obtain ⟨sz, ok⟩ := r
      cases ok with
      | false =>
        simp only [Bool.not_false, if_true, execBad, wp_bind, wp_vm] at h2 ⊢
        exact wp_mono h2 (fun _ s3 h3 => hbad s3 h3) fun _ _ he => looked he
      | true =>
        simp only [Bool.not_true, Bool.false_eq_true, if_false, wp_bind, wp_fs, wp_vm] at h2 ⊢
        refine wp_mono (wp_iunlockput_endOp hs hw' ho) (fun _ u1 hu1 => ?_) fun _ _ hf => hf.elim
        refine wp_mono hu1 (fun _ u2 hu2 => ?_) fun _ _ hf => hf.elim
        exact wp_mono h2 (fun _ s3 h3 => ⟨h3, hu2⟩) fun _ _ he => looked he
    · rw [if_pos hlen] at hQ
      rw [if_pos fun he => hlen (Int.ofNat_inj.mp he)]
      exact hbad _ hQ

theorem quiet_loadseg {q va off sz : Nat} {ip : Fin NINODE} : Quiet (loadseg sb q va ip off sz) := by
  refine .bind (.forUp (fun ⟨_, he⟩ => by cases he) fun a => ?_) fun _ => .pure _
  refine .bind (quiet_vm quiet_walkaddr) fun _ => .when (.halt fun ⟨_, he⟩ => by cases he) fun _ => ?_
  exact .bind quiet_fs fun _ => .bind (quiet_vm (.change fun _ h => h)) fun _ => .ite (fun _ => .pure _) fun _ => .pure _

theorem quiet_loadSegments {q rounds off sz : Nat} {ip : Fin NINODE} : Quiet (loadSegments sb L q ip rounds off sz) := by
  induction rounds generalizing off sz with
  | zero => exact .pure _
  | succ rounds ih =>
    unfold loadSegments
    refine .bind quiet_fs fun ⟨r, l⟩ => ?_
    dsimp only
    generalize Proghdr.ofBytes l = ph
    generalize (ph.vaddr + ph.memsz) % 2 ^ 64 = top
    refine .ite (fun _ => .pure _) fun _ => .ite (fun _ => ih) fun _ => ?_
    refine .ite (fun _ => .pure _) fun _ => .ite (fun _ => .pure _) fun _ => .ite (fun _ => .pure _) fun _ => ?_
    refine .bind (quiet_vm quiet_uvmalloc) fun _ => .ite (fun _ => .pure _) fun _ => ?_
    exact .bind quiet_loadseg fun _ => .ite (fun _ => .pure _) fun _ => ih

theorem quiet_execRelease {ip : Fin NINODE} : Quiet (execRelease sb ip) :=
  .bind quiet_fs fun _ => .bind quiet_fs fun _ => .pure _

theorem quiet_exec : Quiet (exec sb L p path argv) := by
  unfold exec
  refine .bind quiet_fs fun _ => .bind quiet_fs fun r => ?_
  cases r with
  | none => exact .bind quiet_fs fun _ => .pure _
  | some ip =>
    refine .bind quiet_fs fun _ => .bind quiet_fs fun _ => .ite (fun _ => quiet_execRelease) fun _ => ?_
    refine .ite (fun _ => quiet_execRelease) fun _ => .bind (.view _) fun _ => .bind (quiet_vm quiet_procPagetable) fun _ => ?_
    refine .ite (fun _ => quiet_execRelease) fun _ => .bind quiet_loadSegments fun _ => .ite (fun _ => ?_) fun _ => ?_
    · exact .bind (quiet_vm quiet_procFreepagetable) fun _ => quiet_execRelease
    · exact .bind quiet_fs fun _ => .bind quiet_fs fun _ => quiet_vm quiet_execStack

/-- `exec` returns, ends its transaction and drops its reference; if it returns -1, the processes, their memory and
    the free pages are as before. -/
theorem exec_all_or_nothing (h : Inv L s.mem T) (htab : T.tab = none) (hwatch : s.mem.watch = none)
    (hp : (s.mem.proc p).state ≠ .unused) (hr : Startable sb s.fs p) (path : Fs.Path) (argv : List Nat) :
    ∃ r t, exec sb L p path argv s = .ok r t ∧ Inv L t.mem T ∧ (r < 0 → Same s.mem t.mem) ∧ Released s.fs t.fs := by
  obtain ⟨cwd, hcwd, -⟩ := hr.cwd
  have hspec : wp (exec sb L p path argv) (fun r t => Execed L (snapAll s.mem T) s.mem T r t.mem ∧ Released s.fs t.fs)
      (fun e _ => Looked e) s := wp_exec_refines hr hcwd (wp_exec h h.rep.snap htab hp)
  obtain ⟨r, t, hrun, hend, hfiles⟩ := quiet_exec.returns hwatch hspec fun _ _ he hno => hno he
  exact ⟨r, t, hrun, hend.inv, execed_same h htab hend, hfiles⟩

end

theorem small_startable : Startable Fs.Small.sb (Fs.Small.sys 1) ⟨1, by decide⟩ :=
  ⟨Fs.Small.one_used, ⟨1, 2, by decide, rfl, rfl⟩, ⟨0, rfl, by decide⟩, by decide⟩

theorem exec_all_or_nothing_root : ∃ r t,
    exec Fs.Small.sb Vm.smallLayout ⟨1, by decide⟩ [Fs.slash] [] ⟨Vm.forkedSys, Fs.Small.sys 1⟩ = .ok r t ∧
    (r < 0 → Same Vm.forkedSys t.mem) ∧ Released (Fs.Small.sys 1) t.fs := by
  have hinv := Vm.inv_reach Vm.forkedSys_reachable
  obtain ⟨hused, hwatch, -⟩ := Vm.forkedSys_child
  generalize Vm.forkedSys = mem at hinv hused hwatch ⊢
  obtain ⟨r, t, hrun, -, hend⟩ := exec_all_or_nothing (s := ⟨mem, Fs.Small.sys 1⟩) hinv rfl hwatch hused small_startable
    [Fs.slash] []
  exact ⟨r, t, hrun, hend⟩

end Xv6.Kern
