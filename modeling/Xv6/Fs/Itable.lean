import Xv6.Fs.Layout
import Xv6.Lib.Reach
import Xv6.Lib.Sum

/-! The in-memory inode table of `kernel/fs.c`, interleaved at the critical sections under `itable.lock`, under an
    inode's sleep-lock and under the buffer lock of an inode block. -/

namespace Xv6.Itable
open Lib Fs

abbrev Key : Type := Nat × Nat

/-- `struct inode`, and who holds references to it. -/
structure Inode (P : Type) where
  key : Key
  ref : Int
  lock : Option P
  valid : Bool
  -- `type`, `major`, `minor`, `nlink`, `size`, `addrs`
  fields : Dinode
  /-- How many references each process holds, and since which lifetime. Nothing of it is read by the code. -/
  held : P → Nat
  since : P → Nat

inductive Pc where
  | idle
  -- in `ialloc`, about to read inode `inum`
  | scan (dev : Nat) (type : Int16) (inum : Nat)
  -- in `ialloc`, about to call `iget`
  | got (k : Key)
  | reading (e : Fin NINODE)
  -- in the freeing branch of `iput`: before `itrunc`, before `ip->type = 0; iupdate(ip)`, before `ip->valid = 0`
  | trunc (e : Fin NINODE)
  | untype (e : Fin NINODE)
  | clear (e : Fin NINODE)
  -- in `iput`, after the freeing branch, about to take `itable.lock` again
  | drop (e : Fin NINODE)
  deriving DecidableEq

structure Sys (P : Type) where
  ninodes : Nat
  itable : Fin NINODE → Inode P
  -- the inodes on disk, through the buffer cache
  dinode : Key → Dinode
  pc : P → Pc
  /-- How often each inode has been allocated, and the lifetimes in which `iput` has freed it. Nothing of it is read by
    the code. -/
  born : Key → Nat
  frees : List (Key × Nat)

inductive Action (P : Type) where
  | ialloc (p : P) (dev : Nat) (type : Int16)
  -- `iget` for a directory entry
  | iget (p : P) (k : Key)
  | idup (p : P) (e : Fin NINODE)
  -- a reference changes hands, as in `fork`
  | pass (p q : P) (e : Fin NINODE)
  | ilock (p : P) (e : Fin NINODE)
  -- the holder of the sleep-lock changes fields and calls `iupdate`
  | edit (p : P) (e : Fin NINODE) (d : Dinode)
  | iunlock (p : P) (e : Fin NINODE)
  | iput (p : P) (e : Fin NINODE)
  | run (p : P)

inductive Refusal where
  | disabled
  -- `acquiresleep` in the freeing branch of `iput` finds the lock taken
  | blocked
  -- `panic("ilock")`, `panic("ilock: no type")`, `panic("iunlock")`, `panic("iget: no inodes")`
  | ilock
  | noType
  | iunlock
  | noInodes
  deriving DecidableEq

section Model
variable {P : Type}

def Sys.lookup (s : Sys P) (k : Key) : Option (Fin NINODE) :=
  (List.finRange NINODE).find? fun e => 0 < (s.itable e).ref ∧ (s.itable e).key = k

def Sys.vacant (s : Sys P) : Option (Fin NINODE) :=
  (List.finRange NINODE).find? fun e => (s.itable e).ref = 0

def Sys.set (s : Sys P) (e : Fin NINODE) (x : Inode P) : Sys P := { s with itable := Function.update s.itable e x }

def Sys.store (s : Sys P) (k : Key) (d : Dinode) : Sys P := { s with dinode := Function.update s.dinode k d }

section
variable (s : Sys P) (e f : Fin NINODE) (x : Inode P) (p : P) (k l : Key) (d : Dinode)

@[grind =] theorem set_itable : (s.set e x).itable f = if f = e then x else s.itable f := Function.update_apply ..
@[simp, grind =] theorem set_dinode : (s.set e x).dinode k = s.dinode k := rfl
@[simp, grind =] theorem set_pc : (s.set e x).pc p = s.pc p := rfl
@[simp, grind =] theorem set_born : (s.set e x).born k = s.born k := rfl
@[simp, grind =] theorem set_frees : (s.set e x).frees = s.frees := rfl
@[simp, grind =] theorem store_itable : (s.store k d).itable e = s.itable e := rfl
@[grind =] theorem store_dinode : (s.store k d).dinode l = if l = k then d else s.dinode l := Function.update_apply ..
@[simp, grind =] theorem store_pc : (s.store k d).pc p = s.pc p := rfl
@[simp, grind =] theorem store_born : (s.store k d).born l = s.born l := rfl
@[simp, grind =] theorem store_frees : (s.store k d).frees = s.frees := rfl

end

variable [DecidableEq P]

def Sys.goto (s : Sys P) (p : P) (c : Pc) : Sys P := { s with pc := Function.update s.pc p c }

section
variable (s : Sys P) (e : Fin NINODE) (p q : P) (c : Pc) (k : Key)

@[simp, grind =] theorem goto_itable : (s.goto p c).itable e = s.itable e := rfl
@[simp, grind =] theorem goto_dinode : (s.goto p c).dinode k = s.dinode k := rfl
@[grind =] theorem goto_pc : (s.goto p c).pc q = if q = p then c else s.pc q := Function.update_apply ..
@[simp, grind =] theorem goto_born : (s.goto p c).born k = s.born k := rfl
@[simp, grind =] theorem goto_frees : (s.goto p c).frees = s.frees := rfl

end

/-- `ip->ref++` for a reference of process `p`. -/
def Inode.take (x : Inode P) (p : P) (life : Nat) : Inode P :=
  { x with ref := x.ref + 1, held := Function.update x.held p (x.held p + 1), since := Function.update x.since p life }

def Inode.drop (x : Inode P) (p : P) : Inode P :=
  { x with ref := x.ref - 1, held := Function.update x.held p (x.held p - 1) }

section
variable (x : Inode P) (p q : P) (life : Nat)

@[simp, grind =] theorem take_key : (x.take p life).key = x.key := rfl
@[simp, grind =] theorem take_ref : (x.take p life).ref = x.ref + 1 := rfl
@[simp, grind =] theorem take_lock : (x.take p life).lock = x.lock := rfl
@[simp, grind =] theorem take_valid : (x.take p life).valid = x.valid := rfl
@[simp, grind =] theorem take_fields : (x.take p life).fields = x.fields := rfl
@[grind =] theorem take_held : (x.take p life).held q = if q = p then x.held p + 1 else x.held q :=
  Function.update_apply ..
@[grind =] theorem take_since : (x.take p life).since q = if q = p then life else x.since q :=
  Function.update_apply ..
@[simp, grind =] theorem drop_key : (x.drop p).key = x.key := rfl
@[simp, grind =] theorem drop_ref : (x.drop p).ref = x.ref - 1 := rfl
@[simp, grind =] theorem drop_lock : (x.drop p).lock = x.lock := rfl
@[simp, grind =] theorem drop_valid : (x.drop p).valid = x.valid := rfl
@[simp, grind =] theorem drop_fields : (x.drop p).fields = x.fields := rfl
@[simp, grind =] theorem drop_since : (x.drop p).since = x.since := rfl
@[grind =] theorem drop_held : (x.drop p).held q = if q = p then x.held p - 1 else x.held q :=
  Function.update_apply ..

end

def Sys.take (s : Sys P) (p : P) (e : Fin NINODE) : Sys P := s.set e ((s.itable e).take p (s.born (s.itable e).key))

/-- `iget`, one critical section under `itable.lock`. -/
def iget (s : Sys P) (p : P) (k : Key) : Except Refusal (Sys P) :=
  match s.lookup k with
  | some e => .ok (s.take p e)
  | none =>
    match s.vacant with
    | some e => .ok ((s.set e { s.itable e with key := k, ref := 0, valid := false }).take p e)
    | none => .error .noInodes

/-- The first critical section of `iput`. -/
def iput (s : Sys P) (p : P) (e : Fin NINODE) : Except Refusal (Sys P) :=
  let x := s.itable e
  if x.ref = 1 ∧ x.valid ∧ x.fields.nlink = 0 then
    if x.lock = none then
      .ok { (s.set e { x with lock := some p }).goto p (.trunc e) with frees := (x.key, s.born x.key) :: s.frees }
    else .error .blocked
  else .ok (s.set e (x.drop p))

def runPc (s : Sys P) (p : P) : Pc → Except Refusal (Sys P)
  | .idle => .error .disabled
  | .scan dev type inum =>
    if inum < s.ninodes then
      if (s.dinode (dev, inum)).type = 0 then
        .ok { (s.store (dev, inum) { Dinode.zero with type := type }).goto p (.got (dev, inum)) with
          born := Function.update s.born (dev, inum) (s.born (dev, inum) + 1) }
      else .ok (s.goto p (.scan dev type (inum + 1)))
    else .ok (s.goto p .idle)
  | .got k => (iget s p k).map (·.goto p .idle)
  | .reading e =>
    let x := s.itable e
    if x.valid then .ok (s.goto p .idle)
    else if (s.dinode x.key).type = 0 then .error .noType
    else .ok ((s.set e { x with fields := s.dinode x.key, valid := true }).goto p .idle)
  | .trunc e =>
    let x := s.itable e
    let d := { x.fields with size := 0, addrs := fun _ => 0 }
    .ok (((s.set e { x with fields := d }).store x.key d).goto p (.untype e))
  | .untype e =>
    let x := s.itable e
    let d := { x.fields with type := 0 }
    .ok (((s.set e { x with fields := d }).store x.key d).goto p (.clear e))
  | .clear e => .ok ((s.set e { s.itable e with valid := false, lock := none }).goto p (.drop e))
  | .drop e => .ok ((s.set e ((s.itable e).drop p)).goto p .idle)

/-- What the callers keep to: one call at a time, only with references that they hold, each dropped once and not the
    last one to an inode held locked; changes only under the lock and not of the type. -/
def Allowed (s : Sys P) : Action P → Prop
  | .ialloc p _ type => s.pc p = .idle ∧ type ≠ 0
  | .iget p k => s.pc p = .idle ∧ (s.dinode k).type ≠ 0 ∧ (s.dinode k).nlink ≠ 0
  | .idup p e => s.pc p = .idle ∧ 0 < (s.itable e).held p
  | .pass p q e => s.pc p = .idle ∧ s.pc q = .idle ∧ 0 < (s.itable e).held p ∧
      ((s.itable e).lock = some p → 1 < (s.itable e).held p)
  | .ilock p e => s.pc p = .idle ∧ 0 < (s.itable e).held p
  | .edit p e d => s.pc p = .idle ∧ (s.itable e).lock = some p ∧ d.type = (s.itable e).fields.type
  | .iunlock p e => s.pc p = .idle ∧ (s.itable e).lock = some p
  | .iput p e => s.pc p = .idle ∧ 0 < (s.itable e).held p ∧ ((s.itable e).lock = some p → 1 < (s.itable e).held p)
  | .run _ => True

instance (s : Sys P) : (a : Action P) → Decidable (Allowed s a)
  | .ialloc .. | .iget .. | .idup .. | .pass .. | .ilock .. | .edit .. | .iunlock .. | .iput .. =>
    inferInstanceAs (Decidable (_ ∧ _))
  | .run _ => inferInstanceAs (Decidable True)

def step (s : Sys P) (a : Action P) : Except Refusal (Sys P) :=
  if Allowed s a then
    match a with
    | .ialloc p dev type => .ok (s.goto p (.scan dev type 1))
    | .iget p k => iget s p k
    | .idup p e => .ok (s.take p e)
    | .pass p q e => .ok ((s.set e ((s.itable e).drop p)).take q e)
    | .ilock p e =>
      let x := s.itable e
      if x.ref < 1 then .error .ilock
      else if x.lock = none then .ok ((s.set e { x with lock := some p }).goto p (.reading e))
      else .error .disabled
    | .edit _ e d => .ok ((s.set e { s.itable e with fields := d }).store (s.itable e).key d)
    | .iunlock p e =>
      let x := s.itable e
      if x.lock ≠ some p ∨ x.ref < 1 then .error .iunlock else .ok (s.set e { x with lock := none })
    | .iput p e => iput s p e
    | .run p => runPc s p (s.pc p)
  else .error .disabled

/-- After `iinit`: an empty table over any inodes on disk, and nobody in a call. -/
structure Start (s : Sys P) : Prop where
  ref : ∀ e, (s.itable e).ref = 0
  lock : ∀ e, (s.itable e).lock = none
  held : ∀ e p, (s.itable e).held p = 0
  pc : ∀ p, s.pc p = .idle
  frees : s.frees = []

end Model

end Xv6.Itable
