import Xv6.Lib.Reach
import Xv6.Param

/-! The driver of `kernel/virtio_disk.c` and its device. Processes, the interrupt handler and the device take turns at
    every access to memory that the device can see. The device takes each published entry of the avail ring once,
    performs what its chain describes, and publishes the head in the used ring, in any order and at any time. -/

namespace Xv6.Virtio

def NUM : Nat := 8

instance : NeZero NUM := ⟨by decide⟩

def F_NEXT : UInt16 := 1
def F_WRITE : UInt16 := 2

inductive Addr (B : Type) where
  | null
  | op (i : Nat)
  | data (b : B)
  | status (i : Nat)
  deriving DecidableEq, Repr

structure Desc (B : Type) where
  addr : Addr B
  len : Nat
  flags : UInt16
  next : Nat

/-- `struct virtio_blk_req`, less `reserved`; `type` is `VIRTIO_BLK_T_OUT` if set. -/
structure BlkReq where
  type : Bool
  sector : UInt64
  deriving DecidableEq, Repr

def reqSize : Nat := 16

structure Info (B : Type) where
  b : Option B
  status : UInt8

/-- `struct disk`, less the lock, with the two rings. -/
structure Disk (B : Type) where
  desc : Nat → Desc B
  free : Nat → Bool
  info : Nat → Info B
  ops : Nat → BlkReq
  -- `avail->ring` and `avail->idx`
  avail : Fin NUM → Nat
  availIdx : UInt16
  -- `used->ring[].id` and `used->idx`, written by the device, and the driver's `used_idx`
  used : Fin NUM → Nat
  deviceIdx : UInt16
  usedIdx : UInt16

/-- `struct buf`, as far as it is used here. -/
structure Buf (D : Type) where
  disk : Bool
  blockno : UInt32
  data : D

/-- A call `virtio_disk_rw(b, write)` with its local `idx`. -/
structure Rq (B : Type) where
  b : B
  write : Bool
  i0 : Nat
  i1 : Nat
  i2 : Nat
  deriving DecidableEq, Repr

def Rq.idx {B : Type} (r : Rq B) : List Nat := [r.i0, r.i1, r.i2]

inductive Pc (B : Type) where
  | idle
  -- before `alloc3_desc`, and asleep on `&disk.free[0]`
  | alloc (b : B) (write : Bool)
  | starved (b : B) (write : Bool)
  -- before the descriptors are formatted, before the avail ring and before `avail->idx` are written
  | format (r : Rq B)
  | ring (r : Rq B)
  | publish (r : Rq B)
  -- before the test of `b->disk`, and asleep on `b`
  | wait (r : Rq B)
  | asleep (r : Rq B)
  -- before `info[idx[0]].b = 0`, and in `free_chain` at descriptor `i`
  | clear (r : Rq B)
  | freeing (r : Rq B) (i : Nat)
  deriving DecidableEq, Repr

inductive Holder (P : Type) where
  | proc (p : P)
  | intr
  deriving DecidableEq, Repr

/-- What the device has moved: `write` tells the direction. -/
structure Transfer (B : Type) where
  b : B
  write : Bool
  sector : UInt64
  deriving DecidableEq, Repr

structure Sys (P B D : Type) where
  disk : Disk B
  lock : Option (Holder P)
  pc : P → Pc B
  buf : B → Buf D
  -- the holder of `b->lock`
  owner : B → Option P
  -- the device: how far it has read the avail ring, the chains it has taken and whether it has performed them, and
  -- its sectors (a block at the number of its first sector)
  seen : UInt16
  pending : List (Nat × Bool)
  sectors : UInt64 → D
  -- the heads that went through the two rings so far, and the transfer for a head since it was last formatted;
  -- nothing reads these
  offered : List Nat
  taken : List Nat
  returned : List Nat
  handled : List Nat
  served : Nat → Option (Transfer B)

inductive Action (P B D : Type) where
  -- `bget` returns the buffer locked, for whatever block; `brelse`; the holder changes the data
  | acquiresleep (p : P) (b : B) (blockno : UInt32)
  | releasesleep (p : P) (b : B)
  | modify (p : P) (b : B) (data : D)
  -- `virtio_disk_rw(b, write)` up to its `acquire`
  | rw (p : P) (b : B) (write : Bool)
  -- the next step of `p`; who is asleep may be woken at any time
  | run (p : P)
  -- `virtio_disk_intr`: its `acquire`, and a round of its loop
  | intr
  | handle
  -- the device takes the next entry of the avail ring; performs its `k`-th chain; publishes it
  | consume
  | perform (k : Nat)
  | complete (k : Nat)

inductive Refusal where
  | disabled
  -- `free_desc 1`, `free_desc 2` and `virtio_disk_intr status`
  | freeDesc1 | freeDesc2 | status
  -- a null pointer or an index outside `info[]`
  | wild
  -- the device finds a chain that makes no sense
  | malformed
  deriving DecidableEq, Repr

namespace Disk
variable {B : Type}

def take (k : Disk B) (i : Nat) : Disk B := { k with free := Function.update k.free i false }

def give (k : Disk B) (i : Nat) : Disk B :=
  { k with
    desc := Function.update k.desc i { addr := .null, len := 0, flags := 0, next := 0 }
    free := Function.update k.free i true }

def allocDesc (k : Disk B) : Option (Nat × Disk B) :=
  ((List.range NUM).find? fun i => k.free i).map fun i => (i, k.take i)

def freeDesc (k : Disk B) (i : Nat) : Except Refusal (Disk B) :=
  if i ≥ NUM then .error .freeDesc1
  else if k.free i then .error .freeDesc2
  else .ok (k.give i)

/-- `alloc3_desc`, which gives back what it has when it cannot get all three. -/
def alloc3Desc (k : Disk B) : Except Refusal (Option (Nat × Nat × Nat) × Disk B) :=
  match k.allocDesc with
  | none => .ok (none, k)
  | some (i0, k0) =>
    match k0.allocDesc with
    | none => do
      let k ← k0.freeDesc i0
      .ok (none, k)
    | some (i1, k1) =>
      match k1.allocDesc with
      | none => do
        let k ← k1.freeDesc i0
        let k ← k.freeDesc i1
        .ok (none, k)
      | some (i2, k2) => .ok (some (i0, i1, i2), k2)

/-- The three descriptors, the header and `info[idx[0]]` of a request. -/
def format (k : Disk B) (r : Rq B) (sector : UInt64) : Disk B :=
  { k with
    ops := Function.update k.ops r.i0 { type := r.write, sector }
    desc := Function.update (Function.update (Function.update k.desc
      r.i0 { addr := .op r.i0, len := reqSize, flags := F_NEXT, next := r.i1 })
      r.i1 { addr := .data r.b, len := BSIZE, flags := (if r.write then 0 else F_WRITE) ||| F_NEXT, next := r.i2 })
      r.i2 { addr := .status r.i0, len := 1, flags := F_WRITE, next := 0 }
    info := Function.update k.info r.i0 { b := some r.b, status := 0xff } }

def describe (k : Disk B) (h : Nat) : Option (Transfer B × Nat) :=
  let d0 := k.desc h
  let d1 := k.desc d0.next
  let d2 := k.desc d1.next
  match d0.addr, d1.addr, d2.addr with
  | .op j, .data b, .status i =>
    if d0.len = reqSize ∧ d1.len = BSIZE ∧ d2.len = 1 ∧ d0.flags = F_NEXT ∧
        d1.flags = (if (k.ops j).type then 0 else F_WRITE) ||| F_NEXT ∧ d2.flags = F_WRITE then
      some ({ b, write := (k.ops j).type, sector := (k.ops j).sector }, i)
    else none
  | _, _, _ => none

end Disk

variable {P B D : Type}

def Buf.sector (x : Buf D) : UInt64 := (x.blockno * UInt32.ofNat (BSIZE / 512)).toUInt64

namespace Sys
variable [DecidableEq P] [DecidableEq B]

def goto (s : Sys P B D) (p : P) (pc : Pc B) : Sys P B D := { s with pc := Function.update s.pc p pc }

def setBuf (s : Sys P B D) (b : B) (x : Buf D) : Sys P B D := { s with buf := Function.update s.buf b x }

def acquiresleep (s : Sys P B D) (p : P) (b : B) (blockno : UInt32) : Except Refusal (Sys P B D) :=
  if s.pc p = .idle ∧ s.owner b = none then
    .ok { s.setBuf b { s.buf b with blockno } with owner := Function.update s.owner b (some p) }
  else .error .disabled

def releasesleep (s : Sys P B D) (p : P) (b : B) : Except Refusal (Sys P B D) :=
  if s.pc p = .idle ∧ s.owner b = some p then .ok { s with owner := Function.update s.owner b none }
  else .error .disabled

def modify (s : Sys P B D) (p : P) (b : B) (data : D) : Except Refusal (Sys P B D) :=
  if s.pc p = .idle ∧ s.owner b = some p then .ok (s.setBuf b { s.buf b with data }) else .error .disabled

/-- The process gives up `vdisk_lock`, or gets it. -/
def releaseAt (s : Sys P B D) (p : P) (pc : Pc B) : Sys P B D := { s.goto p pc with lock := none }

def acquireAt (s : Sys P B D) (p : P) (pc : Pc B) : Except Refusal (Sys P B D) :=
  if s.lock = none then .ok { s.goto p pc with lock := some (.proc p) } else .error .disabled

def rw (s : Sys P B D) (p : P) (b : B) (write : Bool) : Except Refusal (Sys P B D) :=
  if s.pc p = .idle ∧ s.owner b = some p then s.acquireAt p (.alloc b write) else .error .disabled

def allocStep (s : Sys P B D) (p : P) (b : B) (write : Bool) : Except Refusal (Sys P B D) := do
  let (idx, k) ← s.disk.alloc3Desc
  match idx with
  | some (i0, i1, i2) => .ok { s.goto p (.format { b, write, i0, i1, i2 }) with disk := k }
  | none => .ok { s.releaseAt p (.starved b write) with disk := k }

def formatStep (s : Sys P B D) (p : P) (r : Rq B) : Sys P B D :=
  { (s.setBuf r.b { s.buf r.b with disk := true }).goto p (.ring r) with
    disk := s.disk.format r (s.buf r.b).sector
    served := Function.update s.served r.i0 none }

def ringStep (s : Sys P B D) (p : P) (r : Rq B) : Sys P B D :=
  { s.goto p (.publish r) with disk := { s.disk with
      avail := Function.update s.disk.avail (Fin.ofNat NUM s.disk.availIdx.toNat) r.i0 } }

def publishStep (s : Sys P B D) (p : P) (r : Rq B) : Sys P B D :=
  { s.goto p (.wait r) with
    disk := { s.disk with availIdx := s.disk.availIdx + 1 }
    offered := s.offered ++ [r.i0] }

def clearStep (s : Sys P B D) (p : P) (r : Rq B) : Sys P B D :=
  { s.goto p (.freeing r r.i0) with disk := { s.disk with
      info := Function.update s.disk.info r.i0 { s.disk.info r.i0 with b := none } } }

def freeStep (s : Sys P B D) (p : P) (r : Rq B) (i : Nat) : Except Refusal (Sys P B D) := do
  let flag := (s.disk.desc i).flags
  let nxt := (s.disk.desc i).next
  let k ← s.disk.freeDesc i
  if flag &&& F_NEXT ≠ 0 then .ok { s.goto p (.freeing r nxt) with disk := k }
  else .ok { s.releaseAt p .idle with disk := k }

def run (s : Sys P B D) (p : P) : Except Refusal (Sys P B D) :=
  match s.pc p with
  | .idle => .error .disabled
  | .alloc b write => s.allocStep p b write
  | .starved b write => s.acquireAt p (.alloc b write)
  | .format r => .ok (s.formatStep p r)
  | .ring r => .ok (s.ringStep p r)
  | .publish r => .ok (s.publishStep p r)
  | .wait r => if (s.buf r.b).disk then .ok (s.releaseAt p (.asleep r)) else .ok (s.goto p (.clear r))
  | .asleep r => s.acquireAt p (.wait r)
  | .clear r => .ok (s.clearStep p r)
  | .freeing r i => s.freeStep p r i

def intr (s : Sys P B D) : Except Refusal (Sys P B D) :=
  if s.lock = none then .ok { s with lock := some .intr } else .error .disabled

def nextUsed (s : Sys P B D) : Nat := s.disk.used (Fin.ofNat NUM s.disk.usedIdx.toNat)

/-- The completion of a head: `b->disk = 0; disk.used_idx += 1`. -/
def handled1 (s : Sys P B D) (id : Nat) (b : B) : Sys P B D :=
  { s.setBuf b { s.buf b with disk := false } with
    disk := { s.disk with usedIdx := s.disk.usedIdx + 1 }
    handled := s.handled ++ [id] }

def handle (s : Sys P B D) : Except Refusal (Sys P B D) :=
  if s.lock ≠ some .intr then .error .disabled
  else if s.disk.usedIdx = s.disk.deviceIdx then .ok { s with lock := none }
  else if s.nextUsed ≥ NUM then .error .wild
  else if (s.disk.info s.nextUsed).status ≠ 0 then .error .status
  else match (s.disk.info s.nextUsed).b with
    | none => .error .wild
    | some b => .ok (s.handled1 s.nextUsed b)

def consume (s : Sys P B D) : Except Refusal (Sys P B D) :=
  if s.seen = s.disk.availIdx then .error .disabled
  else
    let h := s.disk.avail (Fin.ofNat NUM s.seen.toNat)
    .ok { s with seen := s.seen + 1, pending := s.pending ++ [(h, false)], taken := s.taken ++ [h] }

def move (s : Sys P B D) (x : Transfer B) : Sys P B D :=
  if x.write then { s with sectors := Function.update s.sectors x.sector (s.buf x.b).data }
  else s.setBuf x.b { s.buf x.b with data := s.sectors x.sector }

def perform (s : Sys P B D) (k : Nat) : Except Refusal (Sys P B D) :=
  match s.pending[k]? with
  | some (h, false) =>
    match s.disk.describe h with
    | none => .error .malformed
    | some (x, i) => .ok { s.move x with
        disk := { s.disk with info := Function.update s.disk.info i { s.disk.info i with status := 0 } }
        pending := s.pending.set k (h, true)
        served := Function.update s.served h (some x) }
  | _ => .error .disabled

def complete (s : Sys P B D) (k : Nat) : Except Refusal (Sys P B D) :=
  match s.pending[k]? with
  | some (h, true) => .ok { s with
      disk := { s.disk with
        used := Function.update s.disk.used (Fin.ofNat NUM s.disk.deviceIdx.toNat) h
        deviceIdx := s.disk.deviceIdx + 1 }
      pending := s.pending.eraseIdx k
      returned := s.returned ++ [h] }
  | _ => .error .disabled

end Sys

def step [DecidableEq P] [DecidableEq B] (s : Sys P B D) : Action P B D → Except Refusal (Sys P B D)
  | .acquiresleep p b blockno => s.acquiresleep p b blockno
  | .releasesleep p b => s.releasesleep p b
  | .modify p b data => s.modify p b data
  | .rw p b write => s.rw p b write
  | .run p => s.run p
  | .intr => s.intr
  | .handle => s.handle
  | .consume => s.consume
  | .perform k => s.perform k
  | .complete k => s.complete k

/-- After `virtio_disk_init`. The two indices of a ring start out equal, as `memset` leaves them. -/
structure Init (s : Sys P B D) : Prop where
  free : ∀ i, i < NUM → s.disk.free i = true
  avail : s.disk.availIdx = 0 ∧ s.seen = 0
  used : s.disk.deviceIdx = 0 ∧ s.disk.usedIdx = 0
  lock : s.lock = none
  pc : ∀ p, s.pc p = .idle
  owner : ∀ b, s.owner b = none
  pending : s.pending = []
  hist : s.offered = [] ∧ s.taken = [] ∧ s.returned = [] ∧ s.handled = []

end Xv6.Virtio
