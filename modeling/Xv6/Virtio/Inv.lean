import Mathlib.Data.List.Perm.Subperm
import Xv6.Lib.Ring
import Xv6.Virtio.Basic

/-! What holds between the driver and the device: descriptors and heads belong to one process each, and what is
    formatted stays until its process frees it. -/

namespace Xv6.Virtio
open Lib

variable {P B D : Type}

namespace Pc

def held : Pc B → List Nat
  | .idle | .alloc _ _ | .starved _ _ => []
  | .format r | .ring r | .publish r | .wait r | .asleep r | .clear r => r.idx
  | .freeing r i => if i = r.i0 then r.idx else if i = r.i1 then [r.i1, r.i2] else [r.i2]

def buf : Pc B → Option B
  | .idle => none
  | .alloc b _ | .starved b _ => some b
  | .format r | .ring r | .publish r | .wait r | .asleep r | .clear r | .freeing r _ => some r.b

def inside : Pc B → Bool
  | .idle | .starved _ _ | .asleep _ => false
  | _ => true

def formatted : Pc B → Option (Rq B)
  | .ring r | .publish r | .wait r | .asleep r | .clear r | .freeing r _ => some r
  | _ => none

def armed : Pc B → Option (Rq B)
  | .ring r | .publish r | .wait r | .asleep r => some r
  | _ => none

def sent : Pc B → Option (Rq B)
  | .wait r | .asleep r => some r
  | _ => none

end Pc

def Rq.desc (r : Rq B) (i : Nat) : Desc B :=
  if i = r.i0 then { addr := .op r.i0, len := reqSize, flags := F_NEXT, next := r.i1 }
  else if i = r.i1 then
    { addr := .data r.b, len := BSIZE, flags := (if r.write then 0 else F_WRITE) ||| F_NEXT, next := r.i2 }
  else { addr := .status r.i0, len := 1, flags := F_WRITE, next := 0 }

namespace Sys

def want (s : Sys P B D) (r : Rq B) : Transfer B := { b := r.b, write := r.write, sector := (s.buf r.b).sector }

def queue (s : Sys P B D) : List Nat := s.offered.drop s.taken.length

def finished (s : Sys P B D) : List Nat := s.returned.drop s.handled.length

def out (s : Sys P B D) : List Nat := s.queue ++ s.pending.map Prod.fst ++ s.finished

end Sys

def M : Nat := 2 ^ 16

/-- What a process relies on. -/
structure Good (s : Sys P B D) (p : P) : Prop where
  lock : (s.pc p).inside = true → s.lock = some (.proc p)
  owner : ∀ b, (s.pc p).buf = some b → s.owner b = some p
  idx : ∀ r, (s.pc p).formatted = some r → r.idx.Nodup
  nodup : (s.pc p).held.Nodup
  held : ∀ i ∈ (s.pc p).held, i < NUM ∧ s.disk.free i = false
  chain : ∀ r, (s.pc p).formatted = some r → ∀ i ∈ (s.pc p).held, s.disk.desc i = r.desc i
  header : ∀ r, (s.pc p).armed = some r →
    s.disk.ops r.i0 = { type := r.write, sector := (s.buf r.b).sector } ∧ (s.disk.info r.i0).b = some r.b
  -- `b->disk` is set when the request is about to be published
  prior : ∀ r, s.pc p = .ring r ∨ s.pc p = .publish r → (s.buf r.b).disk = true
  slot : ∀ r, s.pc p = .publish r → s.disk.avail (Fin.ofNat NUM s.disk.availIdx.toNat) = r.i0
  -- nobody goes on before the device has done what was asked for
  served : ∀ r, (s.pc p).sent = some r ∧ (s.buf r.b).disk = false ∨ s.pc p = .clear r →
    s.served r.i0 = some (s.want r)
  place : ∀ r i, s.pc p = .freeing r i → i ∈ r.idx

structure Inv (s : Sys P B D) : Prop where
  good : ∀ p, Good s p
  excl : ∀ p q i, i ∈ (s.pc p).held → i ∈ (s.pc q).held → p = q
  cover : ∀ i, i < NUM → s.disk.free i = false → ∃ p, i ∈ (s.pc p).held
  avail : Ring M s.disk.avail s.seen.toNat s.disk.availIdx.toNat s.offered s.taken
  used : Ring M s.disk.used s.disk.usedIdx.toNat s.disk.deviceIdx.toNat s.returned s.handled
  nodup : s.out.Nodup
  out : ∀ h, h ∈ s.out ↔ ∃ p r, (s.pc p).sent = some r ∧ r.i0 = h ∧ (s.buf r.b).disk = true
  -- what the device has performed
  done : ∀ h p r, (h, true) ∈ s.pending ∨ h ∈ s.finished → (s.pc p).sent = some r → r.i0 = h →
    (s.disk.info h).status = 0 ∧ s.served h = some (s.want r)

theorem inv_init {s : Sys P B D} (h : Init s) : Inv s where
  good p := by
    constructor <;> simp [h.pc p, Pc.inside, Pc.buf, Pc.formatted, Pc.held, Pc.armed, Pc.sent]
  excl p q i hi := by simp [h.pc p, Pc.held] at hi
  cover i hi hf := by
    rw [h.free i hi] at hf
    cases hf
  avail := by
    rw [h.avail.1, h.avail.2, h.hist.1, h.hist.2.1]
    exact Ring.empty _
  used := by
    rw [h.used.1, h.used.2, h.hist.2.2.1, h.hist.2.2.2]
    exact Ring.empty _
  nodup := by simp [Sys.out, Sys.queue, Sys.finished, h.hist, h.pending]
  out x := by simp [Sys.out, Sys.queue, Sys.finished, h.hist, h.pending, h.pc, Pc.sent]
  done x p r _ hp := by simp [h.pc p, Pc.sent] at hp

section
variable {pc : Pc B} {r : Rq B}

theorem Rq.i0_mem (r : Rq B) : r.i0 ∈ r.idx := List.mem_cons_self

theorem Pc.held_of_armed (h : pc.armed = some r) : pc.held = r.idx := by
  cases pc <;> simp_all [Pc.armed, Pc.held]

theorem Pc.formatted_of_armed (h : pc.armed = some r) : pc.formatted = some r := by
  cases pc <;> simp_all [Pc.armed, Pc.formatted]

theorem Pc.buf_of_formatted (h : pc.formatted = some r) : pc.buf = some r.b := by
  cases pc <;> simp_all [Pc.formatted, Pc.buf]

theorem Pc.armed_of_sent (h : pc.sent = some r) : pc.armed = some r := by
  cases pc <;> simp_all [Pc.armed, Pc.sent]

theorem Pc.i0_held_of_sent (h : pc.sent = some r) : r.i0 ∈ pc.held := by
  rw [Pc.held_of_armed (Pc.armed_of_sent h)]
  exact r.i0_mem

theorem Pc.i0_held_of_look {x : Bool} (h : pc.sent = some r ∧ x = false ∨ pc = .clear r) : r.i0 ∈ pc.held := by
  rcases h with h | rfl
  · exact Pc.i0_held_of_sent h.1
  · exact r.i0_mem

theorem Pc.buf_of_sent (h : pc.sent = some r) : pc.buf = some r.b :=
  Pc.buf_of_formatted (Pc.formatted_of_armed (Pc.armed_of_sent h))

end

def SameBuf (x y : Buf D) : Prop := x.sector = y.sector ∧ x.disk = y.disk

theorem Good.frame {s t : Sys P B D} {q : P} (h : Good s q) (hpc : t.pc q = s.pc q)
    (hlock : (s.pc q).inside = true → t.lock = s.lock)
    (hbuf : ∀ b, (s.pc q).buf = some b → t.owner b = s.owner b ∧ SameBuf (t.buf b) (s.buf b))
    (hdesc : ∀ i ∈ (s.pc q).held, t.disk.desc i = s.disk.desc i ∧ t.disk.free i = s.disk.free i)
    (hhead : ∀ i ∈ (s.pc q).held, t.disk.ops i = s.disk.ops i ∧ (t.disk.info i).b = (s.disk.info i).b)
    (hserved : ∀ r, (s.pc q).sent = some r ∧ (s.buf r.b).disk = false ∨ s.pc q = .clear r →
      t.served r.i0 = s.served r.i0)
    (hslot : ∀ r, s.pc q = .publish r → t.disk.avail (Fin.ofNat NUM t.disk.availIdx.toNat) =
      s.disk.avail (Fin.ofNat NUM s.disk.availIdx.toNat)) : Good t q where
  lock hin := by
    rw [hpc] at hin
    rw [hlock hin, h.lock hin]
  owner b hb := by
    rw [hpc] at hb
    rw [(hbuf b hb).1, h.owner b hb]
  idx r hr := h.idx r (hpc ▸ hr)
  nodup := by
    rw [hpc]
    exact h.nodup
  held i hi := by
    rw [hpc] at hi
    rw [(hdesc i hi).2]
    exact h.held i hi
  chain r hr i hi := by
    rw [hpc] at hr hi
    rw [(hdesc i hi).1, h.chain r hr i hi]
  header r hr := by
    rw [hpc] at hr
    have hi : r.i0 ∈ (s.pc q).held := Pc.held_of_armed hr ▸ r.i0_mem
    have hb := (hbuf r.b (Pc.buf_of_formatted (Pc.formatted_of_armed hr))).2.1
    rw [(hhead _ hi).1, (hhead _ hi).2, hb]
    exact h.header r hr
  prior r hr := by
    rw [hpc] at hr
    have hb : (s.pc q).buf = some r.b := by rcases hr with hr | hr <;> rw [hr] <;> rfl
    rw [(hbuf r.b hb).2.2]
    exact h.prior r hr
  slot r hr := by
    rw [hpc] at hr
    rw [hslot r hr, h.slot r hr]
  served r hr := by
    rw [hpc] at hr
    have hb : (s.pc q).buf = some r.b := by
      rcases hr with hr | hr
      · exact Pc.buf_of_sent hr.1
      · rw [hr]
        rfl
    rw [(hbuf r.b hb).2.2] at hr
    rw [hserved r hr, h.served r hr, Sys.want, Sys.want, (hbuf r.b hb).2.1]
  place r i hr := h.place r i (hpc ▸ hr)

namespace Inv
variable {s t : Sys P B D} {p q : P} {r : Rq B} {b : B}

theorem buf_inj (inv : Inv s) (hp : (s.pc p).buf = some b) (hq : (s.pc q).buf = some b) : p = q := by
  have h1 := (inv.good p).owner b hp
  rw [(inv.good q).owner b hq] at h1
  exact (Option.some.inj h1).symm

theorem outside (inv : Inv s) (hp : (s.pc p).inside = true) (hqp : q ≠ p) : (s.pc q).inside = false := by
  by_contra hq
  have h1 := (inv.good q).lock (by simpa using hq)
  rw [(inv.good p).lock hp] at h1
  cases h1
  exact hqp rfl

theorem outside_of_free (inv : Inv s) (hl : s.lock = none ∨ s.lock = some .intr) : (s.pc q).inside = false := by
  by_contra hq
  have h1 := (inv.good q).lock (by simpa using hq)
  rcases hl with hl | hl <;> (rw [hl] at h1; cases h1)

theorem sender (inv : Inv s) {h : Nat} (hh : h ∈ s.out) :
    ∃ p r, (s.pc p).sent = some r ∧ r.i0 = h ∧ (s.buf r.b).disk = true := (inv.out h).mp hh

theorem out_lt (inv : Inv s) {h : Nat} (hh : h ∈ s.out) : h < NUM := by
  obtain ⟨p, r, hs, rfl, -⟩ := inv.sender hh
  exact ((inv.good p).held _ (Pc.i0_held_of_sent hs)).1

theorem not_out (inv : Inv s) {i : Nat} (hi : i ∈ (s.pc p).held) (hp : (s.pc p).sent = none) : i ∉ s.out := by
  intro hh
  obtain ⟨q, r, hs, rfl, -⟩ := inv.sender hh
  obtain rfl := inv.excl p q _ hi (Pc.i0_held_of_sent hs)
  rw [hp] at hs
  cases hs

end Inv

theorem length_le_of_lt {l : List Nat} {n : Nat} (hnd : l.Nodup) (hlt : ∀ x ∈ l, x < n) : l.length ≤ n := by
  have hsub : l ⊆ List.range n := fun x hx => List.mem_range.mpr (hlt x hx)
  simpa using (List.subperm_of_subset hnd hsub).length_le

namespace Inv
variable {s t : Sys P B D} {p q : P} {r : Rq B} {b : B}

theorem not_full {ring : Fin NUM → Nat} {x y : UInt16} {ins outs : List Nat}
    (h : Ring M ring x.toNat y.toNat ins outs) (hlt : (ins.drop outs.length).length < NUM) :
    y.toNat ≠ (x.toNat + NUM) % M := by
  intro he
  have := (h.full_iff (by decide)).mp he
  rw [List.length_drop] at hlt
  omega

theorem avail_room (inv : Inv s) {i : Nat} (hi : i < NUM) (hout : i ∉ s.out) : s.queue.length < NUM := by
  have hnd : (i :: s.queue).Nodup := by
    refine List.nodup_cons.mpr ⟨fun hq => hout ?_, ?_⟩
    · simp [Sys.out, hq]
    · exact (List.nodup_append.mp (List.nodup_append.mp inv.nodup).1).1
  have hle := length_le_of_lt (n := NUM) hnd fun x hx => by
    rcases List.mem_cons.mp hx with rfl | hx
    · exact hi
    · exact inv.out_lt (by simp [Sys.out, hx])
  exact hle

theorem used_room (inv : Inv s) {x : Nat × Bool} (hx : x ∈ s.pending) : s.finished.length < NUM := by
  have hin : x.1 ∈ s.queue ++ s.pending.map Prod.fst :=
    List.mem_append_right _ (List.mem_map.mpr ⟨x, hx, rfl⟩)
  obtain ⟨-, hfin, hdis⟩ := List.nodup_append.mp inv.nodup
  have hnd : (x.1 :: s.finished).Nodup :=
    List.nodup_cons.mpr ⟨fun hf => hdis _ hin _ hf rfl, hfin⟩
  have hle := length_le_of_lt (n := NUM) hnd fun y hy => by
    rcases List.mem_cons.mp hy with rfl | hy
    · exact inv.out_lt (List.mem_append_left _ hin)
    · exact inv.out_lt (List.mem_append_right _ hy)
  exact hle

end Inv

end Xv6.Virtio
