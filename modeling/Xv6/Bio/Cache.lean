import Xv6.Log.Isolation
import Xv6.Log.Recovery

/-! The buffer cache of `kernel/bio.c` under the log of `kernel/log.c`, interleaved at the critical sections under
    `bcache.lock` and `log.lock`, at buffer sleep-locks and at disk transfers. -/

namespace Xv6.Bio
open Lib

instance : NeZero NBUF := ⟨by decide⟩

inductive Use where
  | none
  -- in `bget`, with a reference, waiting for the sleep-lock
  | ref
  -- in `bread`, with the sleep-lock, before the test of `b->valid`
  | locked
  -- `bread` has returned the buffer
  | ready
  -- the process has modified the data and not logged it yet
  | dirty
  | released
  deriving DecidableEq, Repr

-- A reference is held from `bget` to the end of `brelse`, the sleep-lock in between.
def Use.refs : Use → Int
  | .none => 0
  | _ => 1

def Use.holds : Use → Bool
  | .locked | .ready | .dirty => true
  | _ => false

/-- `struct buf`, and where each process is with it. -/
structure Buf (P : Type) where
  valid : Bool
  dev : Nat
  blockno : Nat
  lock : Option P
  refcnt : Int
  data : Block
  use : P → Use

/-- How far the current block write of `commit()` is. -/
inductive Sub where
  | idle
  -- the data of the buffer is in place, the disk write is still to come
  | filled (i : Fin NBUF)
  -- `bwrite` of the buffer has returned
  | flushed (i : Fin NBUF)
  deriving DecidableEq

structure Sys (P : Type) where
  grp : Group.Sys P
  buf : Fin NBUF → Buf P
  -- from `head.next`, the most recently used, to `head.prev`
  lru : List (Fin NBUF)
  disk : Disk
  sub : Sub
  /-- The plain block store that the cache and the log implement: what was last stored in each block. Nothing of it is
    read by the code. -/
  store : Disk

inductive Action (P : Type) where
  | beginOp (p : P)
  | endOp (p : P)
  -- `bread` of block `n`: the critical section of `bget`, `acquiresleep`, and the disk read unless valid
  | bget (p : P) (n : Nat)
  | acquire (p : P) (i : Fin NBUF)
  | fill (p : P) (i : Fin NBUF)
  | modify (p : P) (i : Fin NBUF) (x : Block)
  | logWrite (p : P) (i : Fin NBUF)
  -- `brelse`: `releasesleep` and the critical section
  | release (p : P) (i : Fin NBUF)
  | drop (p : P) (i : Fin NBUF)
  -- `memmove` in `write_log` or `install_trans`, the header fields in `write_head`, and their `bwrite`
  | commitCopy (p : P) (dst src : Fin NBUF)
  | commitHead (p : P) (i : Fin NBUF)
  | commitFlush (p : P)
  -- on to the next block or phase, with `bunpin` in `install_trans`
  | commitNext (p : P)

inductive Refusal where
  | disabled
  -- `panic("bget: no buffers")`
  | noBuffers
  | log (m : Group.Panic)
  deriving DecidableEq

section Model
variable {P : Type}

def InLog (log : Log) (b : Nat) : Prop := log.start ≤ b ∧ b < log.start + log.size

instance (log : Log) (b : Nat) : Decidable (InLog log b) := inferInstanceAs (Decidable (_ ∧ _))

def Key (s : Sys P) (i : Fin NBUF) (n : Nat) : Prop := (s.buf i).dev = ROOTDEV ∧ (s.buf i).blockno = n

instance (s : Sys P) (i : Fin NBUF) (n : Nat) : Decidable (Key s i n) := inferInstanceAs (Decidable (_ ∧ _))

def Sys.set (s : Sys P) (i : Fin NBUF) (b : Buf P) : Sys P := { s with buf := Function.update s.buf i b }

@[simp] theorem set_buf_self (s : Sys P) (i : Fin NBUF) (b : Buf P) : (s.set i b).buf i = b :=
  Function.update_self ..

theorem set_buf_ne (s : Sys P) {i j : Fin NBUF} (b : Buf P) (h : j ≠ i) : (s.set i b).buf j = s.buf j :=
  Function.update_of_ne h ..

theorem forall_set {s : Sys P} {i : Fin NBUF} {b : Buf P} {Q : Fin NBUF → Buf P → Prop} (hi : Q i b)
    (hne : ∀ j, j ≠ i → Q j (s.buf j)) (j : Fin NBUF) : Q j ((s.set i b).buf j) := by
  by_cases hj : j = i
  · subst hj; rw [set_buf_self]; exact hi
  · rw [set_buf_ne s b hj]; exact hne j hj

variable [DecidableEq P]

namespace Buf
variable (b : Buf P) (p : P)

def moveTo (u : Use) (refcnt : Int) : Buf P := { b with use := Function.update b.use p u, refcnt }

def hit : Buf P := b.moveTo p .ref (b.refcnt + 1)

/-- `bget` of block `n`, which is not cached. -/
def recycle (n : Nat) : Buf P :=
  { b with use := Function.update b.use p .ref, refcnt := 1, dev := ROOTDEV, blockno := n, valid := false }

def acquire : Buf P := { b with use := Function.update b.use p .locked, lock := some p }

/-- `bread` after `bget`; `x` is what the disk holds. -/
def fill (x : Block) : Buf P :=
  { b with use := Function.update b.use p .ready, valid := true, data := if b.valid then b.data else x }

def modify (x : Block) : Buf P := { b with use := Function.update b.use p .dirty, data := x }

/-- `log_write`, with `pin` further references. -/
def logged (pin : Int) : Buf P := b.moveTo p .ready (b.refcnt + pin)

def release : Buf P := { b with use := Function.update b.use p .released, lock := none }

def drop : Buf P := b.moveTo p .none (b.refcnt - 1)

def put (x : Block) : Buf P := { b with data := x }

def unpin (k : Int) : Buf P := { b with refcnt := b.refcnt - k }

end Buf

/-- `bget`: take a reference to the cached buffer, or recycle the least recently used unused one. -/
def bget (s : Sys P) (p : P) (n : Nat) : Except Refusal (Sys P) :=
  match s.lru.find? (fun i => decide (Key s i n)) with
  | some i =>
    -- a process that holds the buffer already would wait for itself
    if (s.buf i).use p = .none then
      .ok (s.set i ((s.buf i).hit p))
    else .error .disabled
  | none =>
    match s.lru.reverse.find? (fun i => (s.buf i).refcnt = 0) with
    | some i => .ok (s.set i ((s.buf i).recycle p n))
    | none => .error .noBuffers

/-- The critical section of `brelse`: an unused buffer becomes the most recently used. -/
def drop (s : Sys P) (p : P) (i : Fin NBUF) : Sys P :=
  let t := s.set i ((s.buf i).drop p)
  if (t.buf i).refcnt = 0 then { t with lru := i :: s.lru.erase i } else t

/-- `log_write` of a buffer, which pins it if its block is new to the log. -/
def logWrite (s : Sys P) (p : P) (i : Fin NBUF) : Except Refusal (Sys P) :=
  let b := s.buf i
  match Group.step s.grp (.logWrite p b.blockno) with
  | .ok g =>
    let pin := if s.grp.log.lh.slot b.blockno = s.grp.log.lh.n then 1 else 0
    .ok { s.set i (b.logged p pin) with grp := g }
  | .error (.panic m) => .error (.log m)
  | .error .disabled => .error .disabled

/-- The block that the write of `commit()` at `ph` goes to, if there is one. -/
def target (log : Log) : Group.Phase → Option Nat
  | .writeLog tail => if tail < log.lh.n then some (log.start + tail + 1) else none
  | .writeHead | .eraseHead => some log.start
  | .install tail => if tail < log.lh.n then some (log.lh.block tail) else none
  | _ => none

/-- The block that `write_log` or `install_trans` copies from. -/
def source (log : Log) : Group.Phase → Option Nat
  | .writeLog tail => some (log.lh.block tail)
  | .install tail => some (log.start + tail + 1)
  | _ => none

/-- `write_head` and `write_log` store into the log's own blocks. The copy of `install_trans` is not a store. -/
def ownStore (s : Sys P) (ph : Group.Phase) (n : Nat) (x : Block) : Disk :=
  match ph with
  | .install _ => s.store
  | _ => Function.update s.store n x

def Phase.unpins : Group.Phase → Int
  | .install _ => 1
  | _ => 0

def commitNext (s : Sys P) (p : P) (ph : Group.Phase) : Except Refusal (Sys P) :=
  match target s.grp.log ph, s.sub with
  | none, .idle => .ok { s with grp := Group.commitStep s.grp p ph }
  | some _, .flushed i =>
    .ok { s.set i ((s.buf i).unpin (Phase.unpins ph)) with
      grp := Group.commitStep s.grp p ph, sub := .idle }
  | _, _ => .error .disabled

/-- Whether a process may release the buffer: it is not in the middle of a block write of `commit()`. -/
def Sub.frees (sub : Sub) (i : Fin NBUF) : Bool :=
  match sub with
  | .idle => true
  | .filled j | .flushed j => i ≠ j

/-- One atomic step. A process modifies only buffers of blocks outside the log, inside an operation, and logs them
    before it releases them. -/
def step [Fintype P] (s : Sys P) : Action P → Except Refusal (Sys P)
  | .beginOp p =>
    match Group.step s.grp (.beginOp p) with
    | .ok g => .ok { s with grp := g }
    | .error _ => .error .disabled
  | .endOp p =>
    if ∀ i, (s.buf i).use p = .none then
      match Group.step s.grp (.endOp p) with
      | .ok g => .ok { s with grp := g }
      | .error (.panic m) => .error (.log m)
      | .error .disabled => .error .disabled
    else .error .disabled
  | .bget p n => bget s p n
  | .acquire p i =>
    if (s.buf i).use p = .ref ∧ (s.buf i).lock = none then
      .ok (s.set i ((s.buf i).acquire p))
    else .error .disabled
  | .fill p i =>
    if (s.buf i).use p = .locked then .ok (s.set i ((s.buf i).fill p (s.disk (s.buf i).blockno)))
    else .error .disabled
  | .modify p i x =>
    match s.grp.pc p with
    | .inOp _ =>
      if ((s.buf i).use p = .ready ∨ (s.buf i).use p = .dirty) ∧ ¬InLog s.grp.log (s.buf i).blockno then
        .ok { s.set i ((s.buf i).modify p x) with
          store := Function.update s.store (s.buf i).blockno x }
      else .error .disabled
    | _ => .error .disabled
  | .logWrite p i =>
    if ((s.buf i).use p = .ready ∨ (s.buf i).use p = .dirty) ∧ ¬InLog s.grp.log (s.buf i).blockno then logWrite s p i
    else .error .disabled
  | .release p i =>
    if (s.buf i).use p = .ready ∧ s.sub.frees i then
      .ok (s.set i ((s.buf i).release p))
    else .error .disabled
  | .drop p i => if (s.buf i).use p = .released then .ok (drop s p i) else .error .disabled
  | .commitCopy p dst src =>
    match s.grp.pc p with
    | .commit ph =>
      if s.sub = .idle ∧ (s.buf dst).use p = .ready ∧ (s.buf src).use p = .ready ∧
          target s.grp.log ph = some (s.buf dst).blockno ∧ source s.grp.log ph = some (s.buf src).blockno then
        .ok { s.set dst ((s.buf dst).put (s.buf src).data) with
          sub := .filled dst, store := ownStore s ph (s.buf dst).blockno (s.buf src).data }
      else .error .disabled
    | _ => .error .disabled
  | .commitHead p i =>
    match s.grp.pc p with
    | .commit ph =>
      if (ph = .writeHead ∨ ph = .eraseHead) ∧ s.sub = .idle ∧ (s.buf i).use p = .ready ∧
          (s.buf i).blockno = s.grp.log.start then
        let x := Recovery.putHead (s.buf i).data s.grp.log.lh
        .ok { s.set i ((s.buf i).put x) with
          sub := .filled i, store := ownStore s ph s.grp.log.start x }
      else .error .disabled
    | _ => .error .disabled
  | .commitFlush p =>
    match s.grp.pc p, s.sub with
    | .commit _, .filled i =>
      .ok { s with disk := Function.update s.disk (s.buf i).blockno (s.buf i).data, sub := .flushed i }
    | _, _ => .error .disabled
  | .commitNext p =>
    match s.grp.pc p with
    | .commit ph => commitNext s p ph
    | _ => .error .disabled

/-- After `binit` and `initlog`: an empty cache and an empty log. -/
structure Init (size : Nat) (s : Sys P) : Prop where
  grp : Group.Init size s.grp
  lru : ∀ i, i ∈ s.lru
  dev : ∀ i, (s.buf i).dev = 0
  valid : ∀ i, (s.buf i).valid = false
  lock : ∀ i, (s.buf i).lock = none
  refcnt : ∀ i, (s.buf i).refcnt = 0
  use : ∀ i p, (s.buf i).use p = .none
  sub : s.sub = .idle
  store : s.store = s.disk

variable [Fintype P] {s t : Sys P} {p : P} {i : Fin NBUF}

theorem step_beginOp (h : step s (.beginOp p) = .ok t) :
    ∃ g, Group.step s.grp (.beginOp p) = .ok g ∧ t = { s with grp := g } := by
  simp only [step] at h
  split at h
  · rename_i g hg; exact ⟨g, hg, (Except.ok.inj h).symm⟩
  · cases h

theorem step_endOp (h : step s (.endOp p) = .ok t) :
    ∃ g, Group.step s.grp (.endOp p) = .ok g ∧ (∀ i, (s.buf i).use p = .none) ∧ t = { s with grp := g } := by
  simp only [step] at h
  split at h
  · rename_i hnone
    split at h
    · rename_i g hg; exact ⟨g, hg, hnone, (Except.ok.inj h).symm⟩
    · cases h
    · cases h
  · cases h

theorem step_bget {n : Nat} (h : step s (.bget p n) = .ok t) :
    (∃ i, Key s i n ∧ (s.buf i).use p = .none ∧ t = s.set i ((s.buf i).hit p)) ∨
    (∃ i, (∀ j ∈ s.lru, ¬Key s j n) ∧ (s.buf i).refcnt = 0 ∧ t = s.set i ((s.buf i).recycle p n)) := by
  simp only [step, bget] at h
  split at h
  · rename_i i hi
    split at h
    · rename_i huse
      exact Or.inl ⟨i, by simpa using List.find?_some hi, huse, (Except.ok.inj h).symm⟩
    · cases h
  · rename_i hmiss
    split at h
    · rename_i i hi
      have hmiss' : ∀ j ∈ s.lru, ¬Key s j n := by simpa using List.find?_eq_none.mp hmiss
      exact Or.inr ⟨i, hmiss', by simpa using List.find?_some hi, (Except.ok.inj h).symm⟩
    · cases h

theorem step_acquire (h : step s (.acquire p i) = .ok t) :
    (s.buf i).use p = .ref ∧ (s.buf i).lock = none ∧ t = s.set i ((s.buf i).acquire p) := by
  simp only [step] at h
  split at h
  · rename_i hc; exact ⟨hc.1, hc.2, (Except.ok.inj h).symm⟩
  · cases h

theorem step_fill (h : step s (.fill p i) = .ok t) :
    (s.buf i).use p = .locked ∧ t = s.set i ((s.buf i).fill p (s.disk (s.buf i).blockno)) := by
  simp only [step] at h
  split at h
  · rename_i huse; exact ⟨huse, (Except.ok.inj h).symm⟩
  · cases h

theorem step_modify {x : Block} (h : step s (.modify p i x) = .ok t) :
    (∃ l, s.grp.pc p = .inOp l) ∧ ((s.buf i).use p = .ready ∨ (s.buf i).use p = .dirty) ∧
      ¬InLog s.grp.log (s.buf i).blockno ∧
      t = { s.set i ((s.buf i).modify p x) with
        store := Function.update s.store (s.buf i).blockno x } := by
  simp only [step] at h
  split at h
  · rename_i l hp
    split at h
    · rename_i hc; exact ⟨⟨l, hp⟩, hc.1, hc.2, (Except.ok.inj h).symm⟩
    · cases h
  · cases h

theorem step_logWrite (h : step s (.logWrite p i) = .ok t) :
    ((s.buf i).use p = .ready ∨ (s.buf i).use p = .dirty) ∧ ¬InLog s.grp.log (s.buf i).blockno ∧
      ∃ g, Group.step s.grp (.logWrite p (s.buf i).blockno) = .ok g ∧
        t = { s.set i ((s.buf i).logged p
          (if s.grp.log.lh.slot (s.buf i).blockno = s.grp.log.lh.n then 1 else 0)) with grp := g } := by
  simp only [step] at h
  split at h
  · rename_i hc
    simp only [logWrite] at h
    split at h
    · rename_i g hg; exact ⟨hc.1, hc.2, g, hg, (Except.ok.inj h).symm⟩
    · cases h
    · cases h
  · cases h

theorem step_release (h : step s (.release p i) = .ok t) :
    (s.buf i).use p = .ready ∧ s.sub.frees i = true ∧ t = s.set i ((s.buf i).release p) := by
  simp only [step] at h
  split at h
  · rename_i hc; exact ⟨hc.1, hc.2, (Except.ok.inj h).symm⟩
  · cases h

theorem step_drop (h : step s (.drop p i) = .ok t) : (s.buf i).use p = .released ∧ t = drop s p i := by
  simp only [step] at h
  split at h
  · rename_i hc; exact ⟨hc, (Except.ok.inj h).symm⟩
  · cases h

theorem step_commitCopy {dst src : Fin NBUF} (h : step s (.commitCopy p dst src) = .ok t) :
    ∃ ph, s.grp.pc p = .commit ph ∧ s.sub = .idle ∧ (s.buf dst).use p = .ready ∧ (s.buf src).use p = .ready ∧
      target s.grp.log ph = some (s.buf dst).blockno ∧ source s.grp.log ph = some (s.buf src).blockno ∧
      t = { s.set dst ((s.buf dst).put (s.buf src).data) with
        sub := .filled dst, store := ownStore s ph (s.buf dst).blockno (s.buf src).data } := by
  simp only [step] at h
  split at h
  · rename_i ph hp
    split at h
    · rename_i hc
      obtain ⟨h1, h2, h3, h4, h5⟩ := hc
      exact ⟨ph, hp, h1, h2, h3, h4, h5, (Except.ok.inj h).symm⟩
    · cases h
  · cases h

theorem step_commitHead (h : step s (.commitHead p i) = .ok t) :
    ∃ ph, s.grp.pc p = .commit ph ∧ (ph = .writeHead ∨ ph = .eraseHead) ∧ s.sub = .idle ∧
      (s.buf i).use p = .ready ∧ (s.buf i).blockno = s.grp.log.start ∧
      ∃ x, t = { s.set i ((s.buf i).put x) with
        sub := .filled i, store := ownStore s ph s.grp.log.start x } := by
  simp only [step] at h
  split at h
  · rename_i ph hp
    split at h
    · rename_i hc
      obtain ⟨h1, h2, h3, h4⟩ := hc
      exact ⟨ph, hp, h1, h2, h3, h4, _, (Except.ok.inj h).symm⟩
    · cases h
  · cases h

theorem step_commitFlush (h : step s (.commitFlush p) = .ok t) :
    ∃ ph i, s.grp.pc p = .commit ph ∧ s.sub = .filled i ∧
      t = { s with disk := Function.update s.disk (s.buf i).blockno (s.buf i).data, sub := .flushed i } := by
  simp only [step] at h
  split at h
  · rename_i ph i hp hs; exact ⟨ph, i, hp, hs, (Except.ok.inj h).symm⟩
  · cases h

theorem step_commitNext (h : step s (.commitNext p) = .ok t) :
    ∃ ph, s.grp.pc p = .commit ph ∧
      ((target s.grp.log ph = none ∧ s.sub = .idle ∧ t = { s with grp := Group.commitStep s.grp p ph }) ∨
       (∃ n i, target s.grp.log ph = some n ∧ s.sub = .flushed i ∧
        t = { s.set i ((s.buf i).unpin (Phase.unpins ph)) with
          grp := Group.commitStep s.grp p ph, sub := .idle })) := by
  simp only [step] at h
  split at h
  · rename_i ph hp
    refine ⟨ph, hp, ?_⟩
    simp only [commitNext] at h
    split at h
    · rename_i ht hs; exact Or.inl ⟨ht, hs, (Except.ok.inj h).symm⟩
    · rename_i n i ht hs; exact Or.inr ⟨n, i, ht, hs, (Except.ok.inj h).symm⟩
    · cases h
  · cases h

end Model

end Xv6.Bio
