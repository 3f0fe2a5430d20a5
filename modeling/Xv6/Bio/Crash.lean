import Xv6.Bio.Refine
import Xv6.Log.CrashSafety

/-! Power failures of the running system: in every state that the interleaved operations, the buffer cache and the
    commits reach, the disk is one from which recovery restores the blocks as the last commit left them. -/

namespace Xv6.Bio
open Lib
open Recovery (headN headBlock recoverFromLog reboot crashes Txn)

def diskHead (log : Log) (d : Disk) : LogHeader := ⟨headN (d log.start), headBlock (d log.start)⟩

/-- What `recover_from_log` needs to turn the home area of disk `d` into that of `f`. -/
structure Recoverable (log : Log) (d f : Disk) : Prop where
  fits : Txn.Fits ⟨log.start, log.size, diskHead log d, f, d⟩
  slots : ∀ j < (diskHead log d).n, d (log.start + j + 1) = f ((diskHead log d).block j)
  home : ∀ b, ¬InLog log b → b ∉ (diskHead log d).blocks → d b = f b

/-- However often recovery is interrupted, the one that runs to its end restores `f`. -/
theorem Recoverable.recovers {log : Log} {d f : Disk} (h : Recoverable log d f) (ks : List Nat) :
    ∃ t, recoverFromLog (reboot log.start log.size (crashes log.start log.size d ks) none) = .ok () t ∧
      headN (t.disk log.start) = 0 ∧ ∀ b, ¬InLog log b → t.disk b = f b := by
  have L : Txn.Logged ⟨log.start, log.size, diskHead log d, f, d⟩ 0 d :=
    ⟨rfl, fun _ _ => rfl, h.slots, fun _ _ => Or.inl rfl, fun j hj => absurd hj (Nat.not_lt_zero j)⟩
  obtain ⟨t, ht, hs⟩ := Recovery.recover_after h.fits (Recovery.crashes_logged h.fits ks (Or.inl L))
  refine ⟨t, ht, hs.head, fun b hb => ?_⟩
  rw [hs.home b hb]
  unfold Txn.after
  split
  · rfl
  · rename_i hmem; exact h.home b hb hmem

structure Holds (x : Block) (lh : LogHeader) : Prop where
  n : headN x = lh.n
  block : ∀ j < lh.n, headBlock x j = lh.block j

theorem holds_putHead (x : Block) {lh : LogHeader} (hn : lh.n ≤ LOGSIZE) (hb : ∀ b ∈ lh.blocks, b < 2 ^ 32) :
    Holds (Recovery.putHead x lh) lh :=
  ⟨Recovery.headN_putHead x hn, fun _ hj => Recovery.headBlock_putHead x hn hb hj⟩

theorem Holds.blocks {log : Log} {d : Disk} {lh : LogHeader} (h : Holds (d log.start) lh) :
    (diskHead log d).blocks = lh.blocks := by
  unfold LogHeader.blocks
  rw [show (diskHead log d).n = lh.n from h.n]
  exact List.map_congr_left fun j hj => h.block j (List.mem_range.mp hj)

/-- A header on the disk, its blocks in the log, and the rest at home. -/
theorem Holds.recoverable {log : Log} {d f : Disk} {lh : LogHeader} (h : Holds (d log.start) lh) (hsize : lh.n < log.size)
    (hn : lh.n ≤ LOGSIZE) (hnodup : lh.blocks.Nodup) (hout : ∀ b ∈ lh.blocks, ¬InLog log b)
    (hword : ∀ b ∈ lh.blocks, b < 2 ^ 32) (hslots : ∀ j < lh.n, d (log.start + j + 1) = f (lh.block j))
    (hhome : ∀ b, ¬InLog log b → b ∉ lh.blocks → d b = f b) : Recoverable log d f where
  fits := {
    size := h.n.trans_lt hsize
    logsize := h.n.trans_le hn
    nodup := h.blocks ▸ hnodup
    home := fun b hb => hout b (h.blocks ▸ hb)
    word := fun b hb => hword b (h.blocks ▸ hb) }
  slots j hj := by
    have hj' : j < lh.n := h.n ▸ hj
    rw [hslots j hj']
    exact congrArg f (h.block j hj').symm
  home b hb hmem := hhome b hb (h.blocks ▸ hmem)

theorem holds_zero {x : Block} (h : headN x = 0) : Holds x ⟨0, fun _ => 0⟩ :=
  ⟨h, fun j hj => absurd hj (Nat.not_lt_zero j)⟩

theorem recoverable_empty {log : Log} {d f : Disk} (hsize : 0 < log.size) (h : headN (d log.start) = 0)
    (hhome : ∀ b, ¬InLog log b → d b = f b) : Recoverable log d f := by
  have hb : (⟨0, fun _ => 0⟩ : LogHeader).blocks = [] := rfl
  refine (holds_zero h).recoverable hsize (Nat.zero_le _) (by simp [hb]) (by simp [hb]) (by simp [hb])
    (fun j hj => absurd hj (Nat.not_lt_zero j)) fun b hb _ => hhome b hb

theorem Recoverable.same {log log' : Log} {d d' f : Disk} (h : Recoverable log d f) (hstart : log'.start = log.start)
    (hsize : log'.size = log.size) (hdisk : d' = d) : Recoverable log' d' f := by
  obtain ⟨⟨h1, h2, h3, h4, h5⟩, hslots, hhome⟩ := h
  simp only [diskHead, Txn.InLog, InLog, ← hstart, ← hsize, ← hdisk] at h1 h2 h3 h4 h5 hslots hhome
  exact ⟨⟨h1, h2, h3, h4, h5⟩, hslots, hhome⟩

/-- `install_trans` may have written any part of the transaction home. -/
theorem Recoverable.install {log : Log} {d f : Disk} (h : Recoverable log d f) {n : Nat} (hn : n ∈ (diskHead log d).blocks)
    (x : Block) : Recoverable log (Function.update d n x) f := by
  have hout := h.fits.home n hn
  have hhead : diskHead log (Function.update d n x) = diskHead log d := by
    have hne : log.start ≠ n := fun he => hout (he ▸ h.fits.start_inLog)
    simp only [diskHead, Function.update_of_ne hne]
  exact {
    fits := by
      rw [hhead]
      exact ⟨h.fits.size, h.fits.logsize, h.fits.nodup, h.fits.home, h.fits.word⟩
    slots := fun j hj => by
      rw [hhead] at hj ⊢
      have hne : log.start + j + 1 ≠ n := fun he => hout (he ▸ h.fits.slot_inLog hj)
      rw [Function.update_of_ne hne, h.slots j hj]
    home := fun b hb hmem => by
      rw [hhead] at hmem
      have hne : b ≠ n := fun he => hmem (he ▸ hn)
      rw [Function.update_of_ne hne, h.home b hb hmem] }

/-- The running system with the disk that a power failure takes it back to: what the blocks held when the header of the
    last commit was written. -/
structure Run (P : Type) where
  sys : Sys P
  durable : Disk

section
variable {P : Type} [Fintype P] [DecidableEq P] {s t : Sys P} {p : P} {i : Fin NBUF}

theorem step_putHead (h : step s (.commitHead p i) = .ok t) :
    ∃ ph, s.grp.pc p = .commit ph ∧ (ph = .writeHead ∨ ph = .eraseHead) ∧ s.sub = .idle ∧
      ∃ x, t = { s.set i ((s.buf i).put (Recovery.putHead x s.grp.log.lh)) with
        sub := .filled i, store := ownStore s ph s.grp.log.start (Recovery.putHead x s.grp.log.lh) } := by
  simp only [step] at h
  split at h
  · rename_i ph hp
    split at h
    · rename_i hc
      exact ⟨ph, hp, hc.1, hc.2.1, _, (Except.ok.inj h).symm⟩
    · cases h
  · cases h

end

namespace Run
section
variable {P : Type}

/-- The header block of the first `write_head` reaches the disk. -/
def commits (s : Sys P) : Action P → Bool
  | .commitFlush p => s.grp.pc p = .commit .writeHead
  | _ => false

def step [Fintype P] [DecidableEq P] (r : Run P) (a : Action P) : Except Refusal (Run P) :=
  match Bio.step r.sys a with
  | .ok t => .ok ⟨t, if commits r.sys a then r.sys.store else r.durable⟩
  | .error e => .error e

/-- `b->blockno` is a `uint`. -/
def uint (r : Run P) : Action P → Bool
  | .logWrite _ i => (r.sys.buf i).blockno < 2 ^ 32
  | _ => true

abbrev log (r : Run P) : Log := r.sys.grp.log

/-- After `initlog`, which leaves an empty log on the disk. -/
structure Init (size : Nat) (r : Run P) : Prop where
  sys : Bio.Init size r.sys
  head : headN (r.sys.disk r.log.start) = 0
  durable : r.durable = r.sys.disk

def Empty (r : Run P) : Prop := headN (r.sys.disk r.log.start) = 0

/-- The transaction of the running commit is on the disk, and nothing was stored since. -/
def Sealed (r : Run P) : Prop :=
  Holds (r.sys.disk r.log.start) r.log.lh ∧ ∀ b, ¬InLog r.log b → r.sys.store b = r.durable b

/-- What a commit at a phase has put on the disk. -/
def Stage (r : Run P) : Group.Phase → Prop
  | .enter | .writeLog _ => r.Empty
  | .writeHead =>
    match r.sys.sub with
    | .idle => r.Empty
    | .filled _ => r.Empty ∧ Holds (r.sys.store r.log.start) r.log.lh
    | .flushed _ => r.Sealed
  | .install _ | .clear => r.Sealed
  | .eraseHead => r.log.lh.n = 0 ∧
    match r.sys.sub with
    | .flushed _ => r.Empty
    | sub => (sub ≠ .idle → Holds (r.sys.store r.log.start) r.log.lh) ∧
      ∀ b, ¬InLog r.log b → r.sys.store b = r.durable b
  | .finish => r.log.lh.n = 0 ∧ r.Empty

structure Safe [Fintype P] (r : Run P) : Prop where
  inv : Inv r.sys
  size : 0 < r.log.size
  small : r.log.lh.n ≤ LOGSIZE ∧ ∀ b ∈ r.log.lh.blocks, b < 2 ^ 32
  recover : Recoverable r.log r.sys.disk r.durable
  stage : ∀ p ph, r.sys.grp.pc p = .commit ph → r.Stage ph
  quiet : (∀ p ph, r.sys.grp.pc p ≠ .commit ph) → r.Empty
  idle : r.log.committing = false → r.log.outstanding = 0 → r.log.lh.n = 0

theorem small_of_empty {lh : LogHeader} (h : lh.n = 0) : lh.n ≤ LOGSIZE ∧ ∀ b ∈ lh.blocks, b < 2 ^ 32 := by
  simp [LogHeader.blocks, h]

variable [Fintype P] {r : Run P} {p : P} {t : Sys P} {i : Fin NBUF}

theorem safe_init {size : Nat} (hsize : 0 < size) (h : Init size r) : Safe r := by
  obtain ⟨rfl, -, -, hn, hpc, -⟩ := h.sys.grp
  exact {
    inv := inv_init h.sys
    size := hsize
    small := small_of_empty hn
    recover := recoverable_empty hsize h.head fun b _ => by rw [h.durable]
    stage := fun p ph hp => by rw [hpc p] at hp; cases hp
    quiet := fun _ => h.head
    idle := fun _ _ => hn }

theorem Safe.start_inLog (safe : Safe r) : InLog r.log r.log.start :=
  ⟨Nat.le_refl _, Nat.lt_add_of_pos_right safe.size⟩

theorem Safe.ne_start (safe : Safe r) {b : Nat} (hb : ¬InLog r.log b) : b ≠ r.log.start :=
  fun h => hb (h ▸ safe.start_inLog)

theorem Safe.lt_size (safe : Safe r) : r.log.lh.n < r.log.size := by
  rcases safe.inv.writing.fits with h | h
  · exact h ▸ safe.size
  · exact h

theorem Safe.home_of_empty (safe : Safe r) (h : r.Empty) {b : Nat} (hb : ¬InLog r.log b) : r.sys.disk b = r.durable b := by
  refine safe.recover.home b hb ?_
  rw [(holds_zero h).blocks]
  simp [LogHeader.blocks]

/-- A step outside `commit()`: it leaves what a commit depends on as it is, or no commit is running. -/
theorem Safe.outside (safe : Safe r) (inv : Inv t) (hstart : t.grp.log.start = r.log.start)
    (hsize : t.grp.log.size = r.log.size) (hdisk : t.disk = r.sys.disk)
    (hsmall : t.grp.log.lh.n ≤ LOGSIZE ∧ ∀ b ∈ t.grp.log.lh.blocks, b < 2 ^ 32)
    (hidle : t.grp.log.committing = false → t.grp.log.outstanding = 0 → t.grp.log.lh.n = 0)
    (h : (t.grp.log.lh = r.log.lh ∧ t.store = r.sys.store ∧ t.sub = r.sys.sub ∧
        ∀ p ph, t.grp.pc p = .commit ph ↔ r.sys.grp.pc p = .commit ph) ∨
      ((∀ p ph, r.sys.grp.pc p ≠ .commit ph) ∧ ∀ p ph, t.grp.pc p = .commit ph → ph = .enter)) :
    Safe ⟨t, r.durable⟩ := by
  have hempty : r.Empty → Empty ⟨t, r.durable⟩ := fun h => by
    simpa only [Empty, log, hdisk, hstart] using h
  refine ⟨inv, hsize ▸ safe.size, hsmall, safe.recover.same hstart hsize hdisk, fun p ph hp => ?_, fun hno => ?_, hidle⟩
  · rcases h with ⟨hlh, hstore, hsub, hpc⟩ | ⟨hno, henter⟩
    · have hst := safe.stage p ph ((hpc p ph).mp hp)
      cases ph <;> simpa only [Stage, Empty, Sealed, InLog, log, hstart, hsize, hlh, hdisk, hstore, hsub] using hst
    · cases henter p ph hp
      exact hempty (safe.quiet hno)
  · rcases h with ⟨-, -, -, hpc⟩ | ⟨hno', -⟩
    · exact hempty (safe.quiet fun p ph hp => hno p ph ((hpc p ph).mpr hp))
    · exact hempty (safe.quiet hno')

variable [DecidableEq P]

theorem safe_beginOp (safe : Safe r) (h : Bio.step r.sys (.beginOp p) = .ok t) : Safe ⟨t, r.durable⟩ := by
  have inv := inv_beginOp safe.inv h
  obtain ⟨g, hg, rfl⟩ := step_beginOp h
  obtain ⟨hp, rfl⟩ := Group.step_beginOp hg
  have hpc : ∀ {v}, (∀ ph, v ≠ .commit ph) → ∀ q ph, Function.update r.sys.grp.pc p v q = .commit ph ↔
      r.sys.grp.pc q = .commit ph := by
    intro v hv q ph
    refine ⟨update_back (hv ph), fun hq => ?_⟩
    rw [Function.update_of_ne, hq]
    rintro rfl
    rcases hp with hp | hp <;> rw [hp] at hq <;> cases hq
  unfold Group.beginOp at inv ⊢
  split_ifs at inv ⊢ with hc hroom
  · exact safe.outside inv rfl rfl rfl safe.small safe.idle (Or.inl ⟨rfl, rfl, rfl, hpc (by simp)⟩)
  · exact safe.outside inv rfl rfl rfl safe.small safe.idle (Or.inl ⟨rfl, rfl, rfl, hpc (by simp)⟩)
  · refine safe.outside inv rfl rfl rfl safe.small (fun _ h0 => ?_) (Or.inl ⟨rfl, rfl, rfl, hpc (by simp)⟩)
    have := inv.grp.outstanding_pos (p := p) (l := []) (Function.update_self ..)
    rw [h0] at this
    cases this

theorem safe_endOp (safe : Safe r) (h : Bio.step r.sys (.endOp p) = .ok t) : Safe ⟨t, r.durable⟩ := by
  have inv := inv_endOp safe.inv h
  obtain ⟨g, hg, -, rfl⟩ := step_endOp h
  obtain ⟨l, hp, -, -, hcase⟩ := Group.step_endOp hg
  have hno : ∀ q ph, r.sys.grp.pc q ≠ .commit ph := fun q ph => safe.inv.not_commit_of_op hp
  rcases hcase with ⟨-, hpc, hlog⟩ | ⟨hout, hpc, hlog⟩
  · refine safe.outside inv (by simp [hlog]) (by simp [hlog]) rfl (by simpa [hlog] using safe.small)
      (fun hc => by simp [hlog] at hc) (Or.inr ⟨hno, fun q ph hq => ?_⟩)
    simp only [hpc] at hq
    rcases update_cases hq with ⟨-, h⟩ | ⟨-, hq⟩
    · simpa using h.symm
    · exact absurd hq (hno q ph)
  · refine safe.outside inv (by simp [hlog]) (by simp [hlog]) rfl (by simpa [hlog] using safe.small) (fun _ h0 => ?_)
      (Or.inr ⟨hno, fun q ph hq => ?_⟩)
    · simp only [hlog] at h0
      omega
    · simp only [hpc, Group.wakeup_commit] at hq
      exact absurd (update_back (by simp) hq) (hno q ph)

theorem safe_logWrite (safe : Safe r) (hword : (r.sys.buf i).blockno < 2 ^ 32)
    (h : Bio.step r.sys (.logWrite p i) = .ok t) : Safe ⟨t, r.durable⟩ := by
  have inv := inv_logWrite safe.inv h
  obtain ⟨-, -, g, hg, rfl⟩ := step_logWrite h
  obtain ⟨l, hp, hlt, -, rfl⟩ := Group.step_logWrite hg
  have hno : ∀ q ph, r.sys.grp.pc q ≠ .commit ph := fun q ph => safe.inv.not_commit_of_op hp
  refine safe.outside inv rfl rfl rfl ⟨?_, fun b hb => ?_⟩ (fun _ h0 => ?_)
    (Or.inr ⟨hno, fun q ph hq => absurd (update_back (by simp) hq) (hno q ph)⟩)
  · simp only [LogHeader.log]
    split <;> omega
  · by_cases hmem : (r.sys.buf i).blockno ∈ r.log.lh.blocks
    · exact safe.small.2 b (LogHeader.blocks_log_of_mem hmem ▸ hb)
    · rw [LogHeader.blocks_log_of_not_mem hmem, List.mem_append, List.mem_singleton] at hb
      rcases hb with hb | rfl
      · exact safe.small.2 b hb
      · exact hword
  · have := safe.inv.grp.outstanding_pos hp
    rw [h0] at this
    cases this

/-! ### Steps of `commit()` -/

omit [DecidableEq P] in
/-- A write of the process that commits: what it is at afterwards is all that has to be shown. -/
theorem Safe.write {ph : Group.Phase} {f : Disk} (safe : Safe r) (hp : r.sys.grp.pc p = .commit ph) (inv : Inv t)
    (hgrp : t.grp = r.sys.grp) (hrec : Recoverable r.log t.disk f) (hstage : Stage ⟨t, f⟩ ph) : Safe ⟨t, f⟩ := by
  obtain ⟨g, buf, lru, disk, sub, store⟩ := t
  cases hgrp
  refine ⟨inv, safe.size, safe.small, hrec, fun q ph' hq => ?_, fun hno => absurd hp (hno p ph), safe.idle⟩
  obtain rfl := safe.inv.grp.commit_unique q p _ _ hq hp
  cases hq.symm.trans hp
  exact hstage

theorem safe_commitCopy {dst src : Fin NBUF} (safe : Safe r) (h : Bio.step r.sys (.commitCopy p dst src) = .ok t) :
    Safe ⟨t, r.durable⟩ := by
  have inv := inv_commitCopy safe.inv h
  obtain ⟨ph, hp, -, -, -, -, hsource, rfl⟩ := step_commitCopy h
  refine safe.write hp inv rfl safe.recover ?_
  have hst := safe.stage p ph hp
  cases ph with
  | writeLog tail => exact hst
  | install tail => exact hst
  | _ => simp [source] at hsource

theorem safe_commitHead (safe : Safe r) (h : Bio.step r.sys (.commitHead p i) = .ok t) : Safe ⟨t, r.durable⟩ := by
  have inv := inv_commitHead safe.inv h
  obtain ⟨ph, hp, hph, hidle, x, rfl⟩ := step_putHead h
  refine safe.write hp inv rfl safe.recover ?_
  have hst := safe.stage p ph hp
  have hhead : Holds (Function.update r.sys.store r.log.start (Recovery.putHead x r.log.lh) r.log.start) r.log.lh := by
    rw [Function.update_self]
    exact holds_putHead x safe.small.1 safe.small.2
  rcases hph with rfl | rfl
  · simp only [Stage, hidle] at hst
    exact ⟨hst, hhead⟩
  · simp only [Stage, hidle] at hst
    refine ⟨hst.1, fun _ => hhead, fun b hb => ?_⟩
    show ownStore r.sys .eraseHead r.log.start _ b = r.durable b
    rw [ownStore_ne (safe.ne_start hb)]
    exact hst.2.2 b hb

omit [DecidableEq P] in
/-- During the write of one block by `commit()`, the others that are not still to be installed are on the disk. -/
theorem Safe.disk_store {ph : Group.Phase} (safe : Safe r) (hp : r.sys.grp.pc p = .commit ph)
    (hsub : r.sys.sub = .filled i) {b : Nat} (hne : b ≠ (r.sys.buf i).blockno) (hb : b ∉ r.log.lh.blocks) :
    r.sys.disk b = r.sys.store b := by
  rcases safe.inv.content.disk b with hd | hpin | ⟨j, hk, ⟨q, hq⟩ | hs⟩
  · exact hd
  · exact absurd hpin.1 hb
  · exact absurd hq (safe.inv.not_dirty_of_commit hp j q)
  · rw [hsub] at hs
    cases hs
    exact absurd hk.2.symm hne

omit [DecidableEq P] in
/-- The commit point: the header reaches the disk, with all its blocks in the log. -/
theorem Safe.sealed (safe : Safe r) (hp : r.sys.grp.pc p = .commit .writeHead) (hsub : r.sys.sub = .filled i)
    (hno : (r.sys.buf i).blockno = r.log.start) :
    Recoverable r.log (Function.update r.sys.disk r.log.start (r.sys.store r.log.start)) r.sys.store := by
  have hst := safe.stage p _ hp
  simp only [Stage, hsub] at hst
  have hout := safe.inv.writing.home
  have hsize := safe.lt_size
  refine Holds.recoverable (by rw [Function.update_self]; exact hst.2) hsize safe.small.1 safe.inv.grp.nodup hout
    safe.small.2 (fun j hj => ?_) fun b hb hmem => ?_
  · have hin : InLog r.log (r.log.start + j + 1) := ⟨by omega, by omega⟩
    have hcopied := safe.inv.writing.copied p _ hp j hj hj
    rw [Function.update_of_ne (by omega), safe.disk_store hp hsub (by omega) fun hm => hout _ hm hin, hcopied]
  · have hne := safe.ne_start hb
    rw [Function.update_of_ne hne, safe.disk_store hp hsub (hno ▸ hne) hmem]

theorem safe_commitFlush (safe : Safe r) (h : Bio.step r.sys (.commitFlush p) = .ok t) :
    Safe ⟨t, if commits r.sys (.commitFlush p) then r.sys.store else r.durable⟩ := by
  have inv := inv_commitFlush safe.inv h
  obtain ⟨ph, i, hp, hsub, rfl⟩ := step_commitFlush h
  obtain ⟨q, ph', hq, hu, htarget⟩ := safe.inv.writing.sub i (Or.inl hsub)
  obtain rfl := safe.inv.grp.commit_unique q p _ _ hq hp
  cases hq.symm.trans hp
  have hdata : (r.sys.buf i).data = r.sys.store (r.sys.buf i).blockno :=
    safe.inv.content.data i ((safe.inv.buf i).keyed q (by simp [hu])) ((safe.inv.buf i).valid q (Or.inl hu))
  have hst := safe.stage q ph hp
  have hsame : ph ≠ .writeHead → ¬commits r.sys (.commitFlush q) = true := fun h => by simp [commits, hp, h]
  rw [hdata] at inv ⊢
  generalize hno : (r.sys.buf i).blockno = n at htarget inv ⊢
  cases ph with
  | writeLog tail =>
    simp only [target, Option.ite_none_right_eq_some, Option.some.injEq] at htarget
    obtain ⟨hlt, rfl⟩ := htarget
    have hin : tail + 1 < r.log.size := Nat.lt_of_le_of_lt hlt safe.lt_size
    have hempty : headN (Function.update r.sys.disk (r.log.start + tail + 1) (r.sys.store (r.log.start + tail + 1))
        r.log.start) = 0 := by
      rw [Function.update_of_ne (by omega)]
      exact hst
    rw [if_neg (hsame (by simp))]
    refine safe.write hp inv rfl (recoverable_empty safe.size hempty fun b hb => ?_) hempty
    have hne : b ≠ r.log.start + tail + 1 := fun he => hb ⟨by omega, by omega⟩
    simp only [Function.update_of_ne hne]
    exact safe.home_of_empty hst hb
  | writeHead =>
    cases htarget
    simp only [Stage, hsub] at hst
    rw [if_pos (by simp [commits, hp])]
    refine safe.write hp inv rfl (safe.sealed hp hsub hno) ⟨?_, fun _ _ => rfl⟩
    simp only [Function.update_self]
    exact hst.2
  | install tail =>
    simp only [target, Option.ite_none_right_eq_some, Option.some.injEq] at htarget
    have hmem := LogHeader.mem_blocks.mpr ⟨tail, htarget⟩
    rw [if_neg (hsame (by simp))]
    refine safe.write hp inv rfl (safe.recover.install (by rw [Holds.blocks hst.1]; exact hmem) _) ⟨?_, hst.2⟩
    have hne := safe.ne_start (safe.inv.writing.home _ hmem)
    simp only [Function.update_of_ne hne.symm]
    exact hst.1
  | eraseHead =>
    cases htarget
    simp only [Stage, hsub] at hst
    obtain ⟨hn, hhead, hagree⟩ := hst
    have hempty : headN (Function.update r.sys.disk r.log.start (r.sys.store r.log.start) r.log.start) = 0 := by
      rw [Function.update_self]
      exact (hhead (by simp)).n.trans hn
    rw [if_neg (hsame (by simp))]
    refine safe.write hp inv rfl (recoverable_empty safe.size hempty fun b hb => ?_) ⟨hn, hempty⟩
    have hne := safe.ne_start hb
    simp only [Function.update_of_ne hne, safe.disk_store hp hsub (hno ▸ hne) (by simp [LogHeader.blocks, hn])]
    exact hagree b hb
  | _ => cases htarget

/-- On to the next block or phase, which writes nothing. -/
theorem Safe.next {ph v : Group.Phase} (safe : Safe r) (hp : r.sys.grp.pc p = .commit ph) (inv : Inv t)
    (hgrp : t.grp = Group.commitStep r.sys.grp p ph) (hdisk : t.disk = r.sys.disk)
    (hpc : t.grp.pc = Function.update r.sys.grp.pc p (.commit v)) (hstage : Stage ⟨t, r.durable⟩ v) :
    Safe ⟨t, r.durable⟩ := by
  obtain ⟨hstart, hsize, hlh⟩ := commitStep_log (p := p) (g := r.sys.grp) ph
  rw [← hgrp] at hstart hsize hlh
  have hp' : t.grp.pc p = .commit v := by rw [hpc, Function.update_self]
  exact {
    inv := inv
    size := hsize ▸ safe.size
    small := by
      rcases hlh with h | h
      · rw [log, h]; exact safe.small
      · exact small_of_empty h
    recover := safe.recover.same hstart hsize hdisk
    stage := fun q ph' hq => by
      rw [hpc] at hq
      cases commit_next safe.inv.grp hp hq
      exact hstage
    quiet := fun hno => absurd hp' (hno p v)
    idle := fun hc => by
      rw [log, inv.grp.commit_busy p v hp'] at hc
      cases hc }

theorem safe_commitNext (safe : Safe r) (h : Bio.step r.sys (.commitNext p) = .ok t) : Safe ⟨t, r.durable⟩ := by
  have inv := inv_commitNext safe.inv h
  obtain ⟨ph, hp, hcase⟩ := step_commitNext h
  have hgrp : t.grp = Group.commitStep r.sys.grp p ph ∧ t.disk = r.sys.disk ∧ t.store = r.sys.store ∧ t.sub = .idle := by
    rcases hcase with ⟨-, hidle, rfl⟩ | ⟨n, i, -, -, rfl⟩
    · exact ⟨rfl, rfl, rfl, hidle⟩
    · exact ⟨rfl, rfl, rfl, rfl⟩
  obtain ⟨hgrp, hdisk, hstore, hsub⟩ := hgrp
  -- a phase that ends with a write has it on the disk
  have hflushed : target r.log ph ≠ none → ∃ i, r.sys.sub = .flushed i := fun ht => by
    rcases hcase with ⟨h, -⟩ | ⟨n, i, -, hf, -⟩
    · exact absurd h ht
    · exact ⟨i, hf⟩
  have hst := safe.stage p ph hp
  have hnext := fun v => safe.next (v := v) hp inv hgrp hdisk
  clear hcase h
  obtain ⟨g, buf, lru, disk, sub, store⟩ := t
  cases hdisk; cases hstore; cases hsub; cases hgrp
  cases ph with
  | enter =>
    refine hnext (if r.log.lh.n > 0 then .writeLog 0 else .finish) rfl ?_
    by_cases hn : r.log.lh.n > 0
    · rw [if_pos hn]; exact hst
    · rw [if_neg hn]; exact ⟨Nat.eq_zero_of_not_pos hn, hst⟩
  | writeLog tail =>
    refine hnext (if tail < r.log.lh.n then .writeLog (tail + 1) else .writeHead) rfl ?_
    by_cases hlt : tail < r.log.lh.n
    · rw [if_pos hlt]; exact hst
    · rw [if_neg hlt]; exact hst
  | writeHead =>
    obtain ⟨i, hf⟩ := hflushed (by simp [target])
    simp only [Stage, hf] at hst
    exact hnext (.install 0) rfl hst
  | install tail =>
    by_cases hlt : tail < r.log.lh.n
    · simp only [hlt, ↓reduceIte] at hnext ⊢
      exact hnext (.install (tail + 1)) rfl hst
    · simp only [hlt, ↓reduceIte] at hnext ⊢
      exact hnext .clear rfl hst
  | clear => exact hnext .eraseHead rfl ⟨rfl, fun h => absurd rfl h, hst.2⟩
  | eraseHead =>
    obtain ⟨i, hf⟩ := hflushed (by simp [target])
    simp only [Stage, hf] at hst
    exact hnext .finish rfl hst
  | finish =>
    have hno : ∀ q ph, (Group.commitStep r.sys.grp p .finish).pc q ≠ .commit ph := fun q ph hq => by
      rcases update_cases (Group.wakeup_commit.mp hq) with ⟨-, h⟩ | ⟨hqp, hq⟩
      · cases h
      · exact hqp (safe.inv.grp.commit_unique q p _ _ hq hp)
    exact ⟨inv, safe.size, safe.small, safe.recover.same rfl rfl rfl, fun q ph hq => absurd hq (hno q ph),
      fun _ => hst.2, fun _ _ => hst.1⟩

theorem safe_step {a : Action P} {r' : Run P} (safe : Safe r) (hword : uint r a = true) (h : step r a = .ok r') :
    Safe r' := by
  simp only [step] at h
  split at h
  · rename_i t ht
    cases h
    have inv := inv_step safe.inv ht
    -- what the cache does beside the log changes nothing that the disk depends on
    have hcache : t.grp = r.sys.grp → t.disk = r.sys.disk → t.store = r.sys.store → t.sub = r.sys.sub →
        Safe ⟨t, r.durable⟩ := fun hgrp hdisk hstore hsub =>
      safe.outside inv (by rw [hgrp]) (by rw [hgrp]) hdisk (hgrp ▸ safe.small) (hgrp ▸ safe.idle)
        (Or.inl ⟨by rw [hgrp], hstore, hsub, by simp [hgrp]⟩)
    cases a with
    | beginOp p => exact safe_beginOp safe ht
    | endOp p => exact safe_endOp safe ht
    | bget p n => rcases step_bget ht with ⟨i, -, -, rfl⟩ | ⟨i, -, -, rfl⟩ <;> exact hcache rfl rfl rfl rfl
    | acquire p i => obtain ⟨-, -, rfl⟩ := step_acquire ht; exact hcache rfl rfl rfl rfl
    | fill p i => obtain ⟨-, rfl⟩ := step_fill ht; exact hcache rfl rfl rfl rfl
    | modify p i x =>
      obtain ⟨⟨l, hp⟩, -, -, rfl⟩ := step_modify ht
      have hno : ∀ q ph, r.sys.grp.pc q ≠ .commit ph := fun q ph => safe.inv.not_commit_of_op hp
      exact safe.outside inv rfl rfl rfl safe.small safe.idle (Or.inr ⟨hno, fun q ph hq => absurd hq (hno q ph)⟩)
    | logWrite p i => exact safe_logWrite safe (by simpa [uint] using hword) ht
    | release p i => obtain ⟨-, -, rfl⟩ := step_release ht; exact hcache rfl rfl rfl rfl
    | drop p i =>
      obtain ⟨-, rfl⟩ := step_drop ht
      have hframe : (drop r.sys p i).grp = r.sys.grp ∧ (drop r.sys p i).disk = r.sys.disk ∧
          (drop r.sys p i).store = r.sys.store ∧ (drop r.sys p i).sub = r.sys.sub := by
        simp only [drop]
        split <;> exact ⟨rfl, rfl, rfl, rfl⟩
      exact hcache hframe.1 hframe.2.1 hframe.2.2.1 hframe.2.2.2
    | commitCopy p dst src => exact safe_commitCopy safe ht
    | commitHead p i => exact safe_commitHead safe ht
    | commitFlush p => exact safe_commitFlush safe ht
    | commitNext p => exact safe_commitNext safe ht
  · cases h

theorem safe_reach {size : Nat} (hsize : 0 < size) (h : Reach (Init size) step (fun r a => uint r a = true) r) : Safe r :=
  h.invariant (fun _ => safe_init hsize) fun _ _ _ safe hok hs => safe_step safe hok hs

/-- A power failure at any moment, with any number of interrupted recoveries after it, takes the blocks outside the log
    back to `durable`: what they held when the header of the last commit was written, which happens while no operation
    is open. When no operation is open and no commit runs, that is everything that was stored. -/
theorem crash_restores_last_commit {size : Nat} (hsize : 0 < size)
    (h : Reach (Init size) step (fun r a => uint r a = true) r) :
    (∀ ks, ∃ t, recoverFromLog (reboot r.log.start r.log.size (crashes r.log.start r.log.size r.sys.disk ks) none) =
      .ok () t ∧ headN (t.disk r.log.start) = 0 ∧ ∀ b, ¬InLog r.log b → t.disk b = r.durable b) ∧
    (∀ a r', step r a = .ok r' → r'.durable = r.durable ∨
      (r'.durable = r.sys.store ∧ ∀ p l, r.sys.grp.pc p ≠ .inOp l)) ∧
    (r.log.outstanding = 0 → r.log.committing = false → ∀ b, ¬InLog r.log b → r.durable b = r.sys.store b) := by
  have safe := safe_reach hsize h
  refine ⟨fun ks => safe.recover.recovers ks, fun a r' hs => ?_, fun h0 hc b hb => ?_⟩
  · simp only [step] at hs
    split at hs
    · cases hs
      by_cases hcom : commits r.sys a = true
      · refine Or.inr ⟨if_pos hcom, fun p l hp => ?_⟩
        cases a with
        | commitFlush q => exact safe.inv.not_commit_of_op hp (of_decide_eq_true hcom)
        | _ => cases hcom
      · exact Or.inl (if_neg hcom)
    · cases hs
  · have hno : ∀ p ph, r.sys.grp.pc p ≠ .commit ph := fun p ph hp => by
      rw [log, safe.inv.grp.commit_busy p ph hp] at hc
      cases hc
    rw [← safe.home_of_empty (safe.quiet hno) hb]
    rcases safe.inv.content.disk b with hd | hpin | ⟨i, -, ⟨p, hp⟩ | hs⟩
    · exact hd
    · have := hpin.1
      simp [LogHeader.blocks, safe.idle hc h0] at this
    · obtain ⟨⟨l, hl⟩, -⟩ := (safe.inv.buf i).dirty p hp
      have := safe.inv.grp.outstanding_pos hl
      rw [h0] at this
      cases this
    · obtain ⟨p, ph, hp, -⟩ := safe.inv.writing.sub i (Or.inl hs)
      exact absurd hp (hno p ph)

end

/-- The power fails right after the header of a commit is written: the block is not home yet, and comes back. -/
theorem crash_restores_last_commit_installed : ∃ r : Run (Fin 1), (r.sys.disk 100).get 5 = 0 ∧
    ∀ ks, ∃ t, recoverFromLog (reboot 2 LOGSIZE (crashes 2 LOGSIZE r.sys.disk ks) none) = .ok () t ∧
      (t.disk 100).get 5 = 7 := by
  let bread (n : Nat) (i : Fin NBUF) : List (Action (Fin 1)) := [.bget 0 n, .acquire 0 i, .fill 0 i]
  let brelse (i : Fin NBUF) : List (Action (Fin 1)) := [.release 0 i, .drop 0 i]
  let trace : List (Action (Fin 1)) := List.flatten [
    [.beginOp 0], bread 100 29, [.modify 0 29 (Bytes.zero.put 5 1 7), .logWrite 0 29], brelse 29, [.endOp 0, .commitNext 0],
    bread 3 28, bread 100 29, [.commitCopy 0 28 29, .commitFlush 0, .commitNext 0], brelse 29, brelse 28, [.commitNext 0],
    bread 2 27, [.commitHead 0 27, .commitFlush 0]]
  have h : (run step uint ⟨boot (Fin 1), (boot (Fin 1)).disk⟩ trace).any (fun r : Run (Fin 1) =>
      r.sys.grp.log.start = 2 && r.sys.grp.log.size = LOGSIZE && (r.sys.disk 100).get 5 = 0 &&
        (r.durable 100).get 5 = 7) = true := by
    decide +kernel
  obtain ⟨r, hrun, hr⟩ := (Option.any_eq_true _ _).mp h
  simp only [Bool.and_eq_true, decide_eq_true_eq] at hr
  obtain ⟨⟨⟨hstart, hsize⟩, hold⟩, hnew⟩ := hr
  have hreach : Reach (Init LOGSIZE) step (fun r a => uint r a = true) r :=
    Reach.of_run (fun _ _ h => h) _ (.init ⟨boot_init _, by decide +kernel, rfl⟩) hrun
  obtain ⟨hrec, -, -⟩ := crash_restores_last_commit (by decide) hreach
  refine ⟨r, hold, fun ks => ?_⟩
  obtain ⟨t, ht, -, hhome⟩ := hrec ks
  rw [hstart, hsize] at ht
  have hout : ¬InLog r.sys.grp.log 100 := by
    unfold InLog
    rw [hstart, hsize]
    decide
  exact ⟨t, ht, by rw [hhome 100 hout]; exact hnew⟩

end Run
end Xv6.Bio
