import Xv6.Fs.Content
import Xv6.Fs.File
import Xv6.Lib.Reach

/-! Writes through a shared `struct file`. A step is what a process does between two points where the inode lock is
    free. -/

namespace Xv6.Fs
open Lib

/-- The part of a round of `filewrite` that starts with `ilock` and ends with `iunlock`. -/
def writeLocked (sb : Superblock) (k : Fin NFILE) (src : Source) (i n1 : Nat) : M Int := do
  let f ← view fun s => s.ftable k
  ilock sb f.ip
  let r ← writei sb f.ip (src.drop i) f.off n1
  doIf (r > 0) (onFile k fun f => f.setOff ((f.off + r.toNat) % 2 ^ 32))
  iunlock sb f.ip
  pure r

theorem filewriteLoop_round (sb : Superblock) (k : Fin NFILE) (src : Source) (n rounds i : Nat) (hi : i < n) :
    filewriteLoop sb k src n (rounds + 1) i = (do
      beginOp
      let r ← writeLocked sb k src i (min (n - i) maxWrite)
      endOp
      if r ≠ (min (n - i) maxWrite : Nat) then pure i
      else filewriteLoop sb k src n rounds (i + min (n - i) maxWrite)) := by
  rw [filewriteLoop, if_pos hi]
  simp only [writeLocked, bind_assoc, pure_bind]

namespace Shared

/-- At the top of the loop, between `begin_op` and `ilock`, between `iunlock` and `end_op`. -/
inductive Pc where
  | top
  | inOp
  | wrote
  deriving DecidableEq, Repr

structure Call where
  src : Source
  n : Nat
  i : Nat
  pc : Pc

def Call.n1 (c : Call) : Nat := min (c.n - c.i) maxWrite

def Call.done (c : Call) : List UInt8 := (List.range (if c.pc = .wrote then c.i + c.n1 else c.i)).map c.src.byte

structure Chunk (P : Type) where
  proc : P
  src : Source
  i : Nat
  n : Nat

def Chunk.bytes {P : Type} (c : Chunk P) : List UInt8 := (List.range c.n).map fun j => c.src.byte (c.i + j)

structure State (P : Type) where
  sys : Sys
  call : P → Option Call
  -- the bytes of the calls that have returned, process by process
  given : P → List UInt8
  -- the chunks in the order of their `writei`
  chunks : List (Chunk P)

inductive Action (P : Type) where
  | call (p : P) (src : Source) (n : Nat)
  | beginOp (p : P)
  | write (p : P)
  | endOp (p : P)
  | ret (p : P)
  -- something else happens
  | other (t : Sys)

variable {P : Type} [DecidableEq P]

def State.setCall (s : State P) (p : P) (c : Option Call) : State P := { s with call := Function.update s.call p c }

def State.at (s : State P) (p : P) (pc : Pc) : Except Stop Call :=
  match s.call p with
  | some c => if c.pc = pc then .ok c else .error .stuck
  | none => .error .stuck

/-- One step. A step that ends in an error of `writei` is refused. -/
def step (sb : Superblock) (k : Fin NFILE) (s : State P) : Action P → Except Stop (State P)
  | .call p src n =>
    if (s.call p).isSome ∨ (s.sys.ftable k).writable = false ∨ (s.sys.ftable k).type ≠ .inode then .error .stuck
    else .ok (s.setCall p (some ⟨src, n, 0, .top⟩))
  | .beginOp p => do
    let c ← s.at p .top
    if c.i < c.n then
      let (_, t) ← exec Fs.beginOp s.sys
      .ok ({ s with sys := t }.setCall p (some { c with pc := .inOp }))
    else .error .stuck
  | .write p => do
    let c ← s.at p .inOp
    let (r, t) ← exec (writeLocked sb k c.src c.i c.n1) s.sys
    if r = c.n1 then
      .ok ({ s with sys := t, chunks := s.chunks ++ [Chunk.mk p c.src c.i c.n1] }.setCall p (some { c with pc := .wrote }))
    else .error .stuck
  | .endOp p => do
    let c ← s.at p .wrote
    let (_, t) ← exec Fs.endOp s.sys
    .ok ({ s with sys := t }.setCall p (some { c with i := c.i + c.n1, pc := .top }))
  | .ret p => do
    let c ← s.at p .top
    if c.i < c.n then .error .stuck
    else .ok ({ s with given := Function.update s.given p (s.given p ++ (List.range c.n).map c.src.byte) }.setCall p none)
  | .other t => .ok { s with sys := t }

def Alone (sb : Superblock) (k : Fin NFILE) (e : Fin NINODE) (s : State P) : Action P → Prop
  | .other t => Keeps sb s.sys e (fun _ => True) t ∧ (t.ftable k).ip = e ∧ (t.ftable k).off = (s.sys.ftable k).off
  | _ => True

/-- The file of `k` is the one of entry `e`, at offset `off`, and no process is in `filewrite`. -/
structure Start (sb : Superblock) (k : Fin NFILE) (e : Fin NINODE) (off : Nat) (s : State P) : Prop where
  ip : (s.sys.ftable k).ip = e
  off : (s.sys.ftable k).off = off
  sound : Sound sb s.sys e
  call : ∀ p, s.call p = none
  given : ∀ p, s.given p = []
  chunks : s.chunks = []

def State.written (s : State P) : List UInt8 := s.chunks.flatMap Chunk.bytes

end Shared

def fileBytes (sb : Superblock) (s : Sys) (e : Fin NINODE) (off len : Nat) : List UInt8 :=
  (List.range len).map fun i => byteAt sb s e (off + i)

section Locked
variable {sb : Superblock} {s t : Sys} {e : Fin NINODE} {k : Fin NFILE} {src : Source}

theorem keeps_of_cur (h : Sound sb s e) (hinum : (t.itable e).inum = (s.itable e).inum) (hdisk : t.disk = s.disk)
    (hcur : cur sb t e = cur sb s e) : Keeps sb s e (fun _ => True) t := by
  refine ⟨hinum, ⟨hinum ▸ h.inum, by rw [hcur, hdisk]; exact h.owned⟩, by rw [hcur], fun bn _ => ?_, fun off _ _ => ?_⟩
  · unfold blockAt
    rw [hcur, hdisk]
  · unfold byteAt
    rw [hcur, hdisk]

theorem wp_ilock (h : Sound sb s e) :
    wp (ilock sb e) (fun _ t => (t.itable e).valid = true ∧ t.ftable = s.ftable ∧ Keeps sb s e (fun _ => True) t)
      (fun _ _ => True) s := by
  unfold ilock onInode
  simp only [wp_bind, wp_view, wp_stopIf, wp_change, wp_doIf, implies_true, true_and, setInode_self, setInode_disk,
    setInode_ftable]
  intro _ _
  refine ⟨fun hv _ => ⟨rfl, ?_⟩, fun hv => ⟨?_, ?_⟩⟩
  · refine keeps_of_cur h (by rw [setInode_self]; rfl) rfl ?_
    unfold cur
    rw [setInode_self, hv]
    rfl
  · exact Bool.not_eq_false _ ▸ hv
  · refine keeps_of_cur h (by rw [setInode_self]; rfl) rfl ?_
    unfold cur
    rw [setInode_self]
    rfl

theorem wp_iunlock (h : Sound sb s e) :
    wp (iunlock sb e) (fun _ t => t.ftable = s.ftable ∧ Keeps sb s e (fun _ => True) t) (fun _ _ => True) s := by
  unfold iunlock onInode onGhost
  simp only [wp_bind, wp_view, wp_stopIf, wp_change, implies_true, true_and, setInode_ftable]
  intro _
  refine keeps_of_cur h (by rw [setInode_self]; rfl) rfl ?_
  unfold cur
  rw [setInode_self]
  rfl

theorem wp_writeLocked (ho : sb.Ordered) (h : Sound sb s e) (hip : (s.ftable k).ip = e) {i n1 : Nat} (hn1 : 0 < n1) :
    wp (writeLocked sb k src i n1)
      (fun r t => r = n1 → (t.ftable k).ip = e ∧ (t.ftable k).off = (s.ftable k).off + n1 ∧
        Keeps sb s e (Outside (s.ftable k).off n1) t ∧ Written sb e (src.drop i) (s.ftable k).off 0 n1 t ∧
        (s.ftable k).off + n1 ≤ (cur sb t e).size.toNat)
      (fun _ _ => True) s := by
  unfold writeLocked
  rw [wp_bind, wp_view, hip, wp_bind]
  refine wp_mono (wp_ilock h) (fun _ s₁ ⟨hv₁, hf₁, hk₁⟩ => ?_) fun _ _ _ => trivial
  rw [wp_bind]
  refine wp_mono (wp_writei ho hv₁ hk₁.sound) (fun r s₂ ⟨_, hf₂, hk₂, hw⟩ => ?_) fun _ _ _ => trivial
  have hfile : s₂.ftable k = s.ftable k := by rw [hf₂, hf₁]
  rw [wp_bind, wp_doIf]
  refine ⟨fun hpos => ?_, fun hneg => ?_⟩
  · unfold onFile
    rw [wp_change, wp_bind]
    have hk₃ : Keeps sb s₂ e (fun _ => True) (s₂.setFile k ((s₂.ftable k).setOff (((s₂.ftable k).off + r.toNat) % 2 ^ 32))) :=
      keeps_of_cur hk₂.sound rfl rfl rfl
    refine wp_mono (wp_iunlock hk₃.sound) (fun _ s₄ ⟨hf₄, hk₄⟩ hr => ?_) fun _ _ _ => trivial
    obtain ⟨hwritten, hsize, hmax⟩ := hw hr
    have hk := hk₃.trans hk₄
    rw [hf₄, setFile_self, hfile, hr]
    refine ⟨hip, ?_, (hk₁.mono fun _ _ => trivial).trans (hk₂.trans (hk.mono fun _ _ => trivial)),
      hwritten.keeps hk fun _ _ _ => trivial, hsize.trans hk.size⟩
    unfold MAXFILE NDIRECT NINDIRECT BSIZE at hmax
    exact Nat.mod_eq_of_lt (by rw [Int.toNat_natCast]; omega)
  · rw [wp_bind]
    exact wp_mono (wp_iunlock hk₂.sound) (fun _ _ _ hr => absurd hr (by omega)) fun _ _ _ => trivial

theorem wp_beginOp : wp beginOp (fun _ t => t.disk = s.disk ∧ SameTables s t) (fun _ _ => True) s := by
  unfold beginOp
  simp only [wp_bind, wp_view, wp_stopIf, wp_change, implies_true, true_and]
  exact fun _ => ⟨rfl, rfl⟩

theorem wp_endOp : wp endOp (fun _ t => t.disk = s.disk ∧ SameTables s t) (fun _ _ => True) s := by
  unfold endOp
  simp only [wp_bind, wp_view, wp_doIf, wp_change]
  exact ⟨fun _ => ⟨rfl, rfl, rfl⟩, fun _ => ⟨trivial, rfl, rfl⟩⟩

theorem keeps_of_tables (h : Sound sb s e) (hdisk : t.disk = s.disk) (htab : SameTables s t) :
    Keeps sb s e (fun _ => True) t := by
  refine keeps_of_cur h (by rw [htab.1]) hdisk ?_
  unfold cur
  rw [htab.1, hdisk]

theorem fileBytes_add {off a b : Nat} : fileBytes sb s e off (a + b) = fileBytes sb s e off a ++ fileBytes sb s e (off + a) b := by
  unfold fileBytes
  rw [List.range_add, List.map_append, List.map_map]
  simp only [Function.comp_def, Nat.add_assoc]

end Locked

namespace Shared

section File
variable {sb : Superblock} {k : Fin NFILE} {e : Fin NINODE} {off : Nat} {s t : Sys} {w : List UInt8}

structure Holds (sb : Superblock) (k : Fin NFILE) (e : Fin NINODE) (off : Nat) (w : List UInt8) (s : Sys) : Prop where
  ip : (s.ftable k).ip = e
  offset : (s.ftable k).off = off + w.length
  sound : Sound sb s e
  block : ∀ i < w.length, blockAt sb s e ((off + i) / BSIZE) ≠ 0
  bytes : fileBytes sb s e off w.length = w
  size : w = [] ∨ off + w.length ≤ (cur sb s e).size.toNat

theorem fileBytes_keeps {Q : Nat → Prop} {len : Nat} (hk : Keeps sb s e Q t) (hQ : ∀ i < len, Q (off + i))
    (hb : ∀ i < len, blockAt sb s e ((off + i) / BSIZE) ≠ 0) : fileBytes sb t e off len = fileBytes sb s e off len := by
  refine List.map_congr_left fun i hi => ?_
  rw [List.mem_range] at hi
  exact hk.byte _ (hQ i hi) (hb i hi)

theorem Holds.keeps (h : Holds sb k e off w s) (hk : Keeps sb s e (fun _ => True) t) (hip : (t.ftable k).ip = e)
    (hoff : (t.ftable k).off = (s.ftable k).off) : Holds sb k e off w t where
  ip := hip
  offset := hoff.trans h.offset
  sound := hk.sound
  block i hi := by
    rw [hk.block _ (h.block i hi)]
    exact h.block i hi
  bytes := (fileBytes_keeps hk (fun _ _ => trivial) h.block).trans h.bytes
  size := h.size.imp_right fun hs => hs.trans hk.size

theorem Holds.append (h : Holds sb k e off w s) {src : Source} {n : Nat} (hip : (t.ftable k).ip = e)
    (hoff : (t.ftable k).off = (s.ftable k).off + n) (hk : Keeps sb s e (Outside (s.ftable k).off n) t)
    (hw : Written sb e src (s.ftable k).off 0 n t) (hsize : (s.ftable k).off + n ≤ (cur sb t e).size.toNat) :
    Holds sb k e off (w ++ (List.range n).map src.byte) t := by
  rw [h.offset] at hoff hk hw hsize
  have hlen : (w ++ (List.range n).map src.byte).length = w.length + n := by simp
  refine ⟨hip, by omega, hk.sound, fun i hi => ?_, ?_, .inr (by omega)⟩
  · by_cases hiw : i < w.length
    · rw [hk.block _ (h.block i hiw)]
      exact h.block i hiw
    · obtain ⟨j, rfl⟩ := Nat.exists_eq_add_of_le (Nat.le_of_not_lt hiw)
      rw [← Nat.add_assoc]
      exact (hw j (Nat.zero_le j) (by omega)).1
  · rw [hlen, fileBytes_add, fileBytes_keeps hk (fun i hi => .inl (by omega)) h.block, h.bytes]
    congr 1
    refine List.map_congr_left fun i hi => ?_
    rw [List.mem_range] at hi
    exact (hw i (Nat.zero_le i) hi).2

end File

section Callers
variable {P : Type} [DecidableEq P] {s t : State P} {p : P} {c : Call}

def State.writtenBy (s : State P) (p : P) : List UInt8 := (s.chunks.filter fun c => c.proc = p).flatMap Chunk.bytes

structure Callers (s : State P) : Prop where
  small : ∀ c ∈ s.chunks, 0 < c.n ∧ c.n ≤ maxWrite
  own : ∀ p, s.writtenBy p = s.given p ++ (s.call p).elim [] Call.done
  range : ∀ p c, s.call p = some c → c.i ≤ c.n ∧ (c.pc ≠ .top → c.i < c.n)

omit [DecidableEq P] in
theorem at_ok {pc : Pc} (h : s.at p pc = .ok c) : s.call p = some c ∧ c.pc = pc := by
  unfold State.at at h
  split at h
  · rename_i c' hc
    split at h
    · obtain rfl := Except.ok.inj h
      exact ⟨hc, ‹_›⟩
    · exact nomatch h
  · exact nomatch h

theorem Callers.move (h : Callers s) {c' : Option Call} (hcall : t.call = Function.update s.call p c')
    (hgiven : ∀ q ≠ p, t.given q = s.given q) (hown : ∀ q ≠ p, t.writtenBy q = s.writtenBy q)
    (hsmall : ∀ c ∈ t.chunks, 0 < c.n ∧ c.n ≤ maxWrite)
    (hp : t.writtenBy p = t.given p ++ c'.elim [] Call.done)
    (hrange : ∀ c, c' = some c → c.i ≤ c.n ∧ (c.pc ≠ .top → c.i < c.n)) : Callers t := by
  refine ⟨hsmall, fun q => ?_, fun q c hq => ?_⟩
  · by_cases hqp : q = p
    · subst hqp
      rw [hp, hcall, Function.update_self]
    · rw [hown q hqp, hgiven q hqp, hcall, Function.update_of_ne hqp, h.own q]
  · rw [hcall] at hq
    by_cases hqp : q = p
    · subst hqp
      rw [Function.update_self] at hq
      exact hrange c hq
    · rw [Function.update_of_ne hqp] at hq
      exact h.range q c hq

theorem Call.n1_pos (h : c.i < c.n) : 0 < c.n1 ∧ c.i + c.n1 ≤ c.n ∧ c.n1 ≤ maxWrite := by
  have : 0 < maxWrite := by decide
  unfold Call.n1
  omega

theorem Callers.write (h : Callers s) (hc : s.call p = some c) (hpc : c.pc = .inOp) (t : Sys) :
    Callers ({ s with sys := t, chunks := s.chunks ++ [Chunk.mk p c.src c.i c.n1] }.setCall p
      (some { c with pc := .wrote })) := by
  have hlt := (h.range p c hc).2 (by rw [hpc]; decide)
  obtain ⟨hpos, hle, hmax⟩ := Call.n1_pos hlt
  refine h.move rfl (fun _ _ => rfl) (fun q hq => ?_) (fun d hd => ?_) ?_ fun d hd => ?_
  · unfold State.writtenBy State.setCall
    rw [List.filter_append, List.flatMap_append]
    simp [hq.symm]
  · rcases List.mem_append.mp hd with hold | hnew
    · exact h.small d hold
    · obtain rfl := List.mem_singleton.mp hnew
      exact ⟨hpos, hmax⟩
  · have hown := h.own p
    unfold State.writtenBy State.setCall at *
    rw [List.filter_append, List.flatMap_append, hown, hc]
    simp [Call.done, Chunk.bytes, Call.n1, hpc, List.range_add]
  · obtain rfl := Option.some.inj hd
    exact ⟨hlt.le, fun _ => hlt⟩

end Callers

/-! ### Runs -/

section Runs
variable {P : Type} [DecidableEq P] {sb : Superblock} {k : Fin NFILE} {e : Fin NINODE} {off : Nat} {s t : State P}

structure Inv (sb : Superblock) (k : Fin NFILE) (e : Fin NINODE) (off : Nat) (s : State P) : Prop where
  file : Holds sb k e off s.written s.sys
  callers : Callers s

theorem start_inv (h : Start sb k e off s) : Inv sb k e off s := by
  have hw : s.written = [] := by
    unfold State.written
    rw [h.chunks]
    rfl
  refine ⟨?_, ?_⟩
  · rw [hw]
    exact ⟨h.ip, h.off, h.sound, nofun, rfl, .inl rfl⟩
  · refine ⟨fun c hc => ?_, fun p => ?_, fun p c hc => ?_⟩
    · rw [h.chunks] at hc
      exact nomatch hc
    · unfold State.writtenBy
      rw [h.chunks, h.given, h.call]
      rfl
    · rw [h.call] at hc
      exact nomatch hc

theorem Inv.log (h : Inv sb k e off s) {u : Sys} (hu : u.disk = s.sys.disk ∧ SameTables s.sys u) (hsys : t.sys = u)
    (hchunks : t.chunks = s.chunks) (hcallers : Callers t) : Inv sb k e off t := by
  obtain ⟨hdisk, htab⟩ := hu
  have hw : t.written = s.written := by
    unfold State.written
    rw [hchunks]
  refine ⟨?_, hcallers⟩
  rw [hw, hsys]
  exact h.file.keeps (keeps_of_tables h.file.sound hdisk htab) (by rw [htab.2]; exact h.file.ip) (by rw [htab.2])

theorem inv_call (h : Inv sb k e off s) {p : P} {src : Source} {n : Nat} (hs : step sb k s (.call p src n) = .ok t) :
    Inv sb k e off t := by
  simp only [step] at hs
  split at hs
  · exact nomatch hs
  rename_i hfree
  obtain rfl := Except.ok.inj hs
  rw [not_or, Bool.not_eq_true, Option.isSome_eq_false_iff, Option.isNone_iff_eq_none] at hfree
  refine ⟨h.file, h.callers.move rfl (fun _ _ => rfl) (fun _ _ => rfl) h.callers.small ?_ fun c hc => ?_⟩
  · have := h.callers.own p
    rw [hfree.1] at this
    exact this
  · obtain rfl := Option.some.inj hc
    exact ⟨Nat.zero_le _, fun hpc => absurd rfl hpc⟩

theorem inv_beginOp (h : Inv sb k e off s) {p : P} (hs : step sb k s (.beginOp p) = .ok t) : Inv sb k e off t := by
  obtain ⟨c, hc, hs⟩ := bind_eq_ok.mp hs
  obtain ⟨hcall, hpc⟩ := at_ok hc
  split at hs
  · rename_i hlt
    obtain ⟨⟨_, u⟩, hu, hs⟩ := bind_eq_ok.mp hs
    obtain rfl := Except.ok.inj hs
    refine h.log (wp_exec wp_beginOp hu) rfl rfl
      (h.callers.move rfl (fun _ _ => rfl) (fun _ _ => rfl) h.callers.small ?_ fun d hd => ?_)
    · have := h.callers.own p
      rw [hcall, Option.elim_some, Call.done, hpc] at this
      exact this
    · obtain rfl := Option.some.inj hd
      exact ⟨hlt.le, fun _ => hlt⟩
  · exact nomatch hs

theorem inv_write (ho : sb.Ordered) (h : Inv sb k e off s) {p : P} (hs : step sb k s (.write p) = .ok t) :
    Inv sb k e off t := by
  obtain ⟨c, hc, hs⟩ := bind_eq_ok.mp hs
  obtain ⟨hcall, hpc⟩ := at_ok hc
  obtain ⟨⟨r, u⟩, hu, hs⟩ := bind_eq_ok.mp hs
  simp only at hs
  split at hs
  · rename_i hr
    obtain rfl := Except.ok.inj hs
    have hlt := (h.callers.range p c hcall).2 (by rw [hpc]; decide)
    have hpost := wp_exec (wp_writeLocked ho h.file.sound h.file.ip (Call.n1_pos hlt).1) hu
    obtain ⟨hip, hoff, hk, hw, hsize⟩ := hpost hr
    refine ⟨?_, h.callers.write hcall hpc u⟩
    have hwritten : State.written ({ s with sys := u, chunks := s.chunks ++ [Chunk.mk p c.src c.i c.n1] }.setCall p
        (some { c with pc := .wrote })) = s.written ++ (List.range c.n1).map (c.src.drop c.i).byte := by
      unfold State.written State.setCall
      rw [List.flatMap_append, List.flatMap_singleton]
      rfl
    rw [hwritten]
    exact h.file.append hip hoff hk hw hsize
  · exact nomatch hs

theorem inv_endOp (h : Inv sb k e off s) {p : P} (hs : step sb k s (.endOp p) = .ok t) : Inv sb k e off t := by
  obtain ⟨c, hc, hs⟩ := bind_eq_ok.mp hs
  obtain ⟨hcall, hpc⟩ := at_ok hc
  obtain ⟨⟨_, u⟩, hu, hs⟩ := bind_eq_ok.mp hs
  obtain rfl := Except.ok.inj hs
  have hlt := (h.callers.range p c hcall).2 (by rw [hpc]; decide)
  refine h.log (wp_exec wp_endOp hu) rfl rfl
    (h.callers.move rfl (fun _ _ => rfl) (fun _ _ => rfl) h.callers.small ?_ fun d hd => ?_)
  · have := h.callers.own p
    rw [hcall, Option.elim_some, Call.done, hpc] at this
    exact this
  · obtain rfl := Option.some.inj hd
    exact ⟨(Call.n1_pos hlt).2.1, fun hne => absurd rfl hne⟩

theorem inv_ret (h : Inv sb k e off s) {p : P} (hs : step sb k s (.ret p) = .ok t) : Inv sb k e off t := by
  obtain ⟨c, hc, hs⟩ := bind_eq_ok.mp hs
  obtain ⟨hcall, hpc⟩ := at_ok hc
  split at hs
  · exact nomatch hs
  rename_i hge
  obtain rfl := Except.ok.inj hs
  refine ⟨h.file, h.callers.move rfl (fun q hq => Function.update_of_ne hq _ _) (fun _ _ => rfl) h.callers.small ?_ nofun⟩
  have hle := (h.callers.range p c hcall).1
  have hown := h.callers.own p
  rw [hcall, Option.elim_some, Call.done, hpc, if_neg (by decide), show c.i = c.n by omega] at hown
  rw [Option.elim_none, List.append_nil]
  change s.writtenBy p = Function.update s.given p _ p
  rw [Function.update_self, hown]

theorem step_inv (ho : sb.Ordered) (h : Inv sb k e off s) (a : Action P) (hok : Alone sb k e s a)
    (hs : step sb k s a = .ok t) : Inv sb k e off t := by
  cases a with
  | call p src n => exact inv_call h hs
  | beginOp p => exact inv_beginOp h hs
  | write p => exact inv_write ho h hs
  | endOp p => exact inv_endOp h hs
  | ret p => exact inv_ret h hs
  | other u =>
    obtain rfl := Except.ok.inj hs
    obtain ⟨hk, hip, hoff⟩ := hok
    exact ⟨h.file.keeps hk hip hoff, h.callers.small, h.callers.own, h.callers.range⟩

/-- The file contains all chunks written, in the order in which the inode lock was taken; those of each process are
    the bytes of its calls, in their order. -/
theorem shared_writes (ho : sb.Ordered) (h : Reach (Start sb k e off) (step sb k) (Alone sb k e) s) :
    (s.sys.ftable k).off = off + s.written.length ∧
    fileBytes sb s.sys e off s.written.length = s.written ∧
    (s.chunks = [] ∨ off + s.written.length ≤ (cur sb s.sys e).size.toNat) ∧
    (∀ c ∈ s.chunks, 0 < c.n ∧ c.n ≤ maxWrite) ∧
    ∀ p, s.writtenBy p = s.given p ++ (s.call p).elim [] Call.done := by
  have hinv : Inv sb k e off s :=
    h.invariant (fun _ => start_inv) fun _ _ a hi hok hs => step_inv ho hi a hok hs
  refine ⟨hinv.file.offset, hinv.file.bytes, ?_, hinv.callers.small, hinv.callers.own⟩
  refine hinv.file.size.imp_left fun hw => ?_
  cases hc : s.chunks with
  | nil => rfl
  | cons c cs =>
    have hpos := (hinv.callers.small c (by rw [hc]; exact List.mem_cons_self ..)).1
    have hlen := congrArg List.length hw
    simp only [State.written, hc, List.flatMap_cons, List.length_append, Chunk.bytes, List.length_map, List.length_range,
      List.length_nil] at hlen
    omega

end Runs

section Example

def smallSb : Superblock where
  size := 100
  nblocks := 52
  ninodes := 16
  nlog := 30
  logstart := 2
  inodestart := 32
  bmapstart := 45

def smallDisk : Disk := fun b => if b = 45 then fun i => if i.val < 6 then 255 else 0 else Bytes.zero

def opened : Sys where
  disk := smallDisk
  lh := []
  outstanding := 0
  itable _ := ⟨2, 1, false, true, { Dinode.zero with type := T_FILE, nlink := 1 }⟩
  ftable _ := ⟨.inode, 2, true, true, 0, ⟨0, by decide⟩, 0, 0⟩
  proc _ := ⟨fun _ => none, none⟩
  pipe _ := none
  ghost := ⟨[], true, [], fun _ => 0, fun _ _ => 0⟩

def idle : State Bool := ⟨opened, fun _ => none, fun _ => [], []⟩

theorem smallSb_ordered : smallSb.Ordered where
  inodes := by decide
  bitmap := by decide
  root := by decide
  inum := by decide
  blocks := by decide

theorem idle_start : Start smallSb ⟨0, by decide⟩ ⟨0, by decide⟩ 0 idle where
  ip := rfl
  off := rfl
  sound := by
    have hslot : ∀ j, slot smallDisk (cur smallSb opened ⟨0, by decide⟩) j = 0 := by
      intro j
      have haddr : ∀ i, (cur smallSb opened ⟨0, by decide⟩).addr i = 0 := by
        intro i
        unfold Dinode.addr
        split <;> rfl
      unfold slot
      rw [haddr, haddr]
      simp
    exact ⟨by decide, by decide +kernel, fun j hj => absurd (hslot j) hj, fun i _ hi => absurd (hslot i) hi⟩
  call _ := rfl
  given _ := rfl
  chunks := rfl

def overlap : List (Action Bool) :=
  [.call false (.kernel [1, 2]) 2, .call true (.kernel [3]) 1, .beginOp false, .beginOp true, .write true, .write false,
    .endOp false, .ret false]

theorem shared_writes_overlap : ∃ s : State Bool,
    (s.sys.ftable ⟨0, by decide⟩).off = 3 ∧ s.written = [3, 1, 2] ∧
    fileBytes smallSb s.sys ⟨0, by decide⟩ 0 3 = [3, 1, 2] ∧ s.given false = [1, 2] := by
  have hrun : (run (step smallSb ⟨0, by decide⟩) (fun _ a => match a with | .other _ => false | _ => true) idle
      overlap).any (fun s => decide (s.written = [3, 1, 2] ∧ s.given false = [1, 2])) = true := by decide +kernel
  obtain ⟨s, hs, hd⟩ := (Option.any_eq_true _ _).mp hrun
  obtain ⟨hw, hg⟩ := of_decide_eq_true hd
  have hreach : Reach (Start smallSb ⟨0, by decide⟩ ⟨0, by decide⟩ 0) (step smallSb ⟨0, by decide⟩)
      (Alone smallSb ⟨0, by decide⟩ ⟨0, by decide⟩) s := by
    refine Reach.of_run (fun s a ha => ?_) _ (.init idle_start) hs
    cases a with
    | other t => exact nomatch ha
    | _ => trivial
  obtain ⟨hoff, hbytes, -, -, -⟩ := shared_writes smallSb_ordered hreach
  rw [hw] at hoff hbytes
  exact ⟨s, hoff, hw, hbytes, hg⟩

end Example

end Shared

end Xv6.Fs
