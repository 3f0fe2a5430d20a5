import Xv6.Lib.Safe
import Xv6.Vm.ExecSpec

/-! A system call that nobody looks at runs to its end. -/

namespace Xv6.Vm
open Lib

/-- Not looked at, `m` never stops to be looked at. -/
def Quiet {α : Type} (m : VmM α) : Prop := Safe (fun s : Sys => s.watch = none) (fun e => ∀ c, e ≠ .call c) m

section
variable {L : Layout} {α : Type} {m : VmM α} {s : Sys}

theorem Quiet.returns (h : Quiet m) {Q : α → Sys → Prop} (hs : s.watch = none) (hm : wp m Q (Looked L) s) :
    ∃ a t, m s = .ok a t ∧ Q a t := by
  refine Safe.returns h hs hm fun e t he hno => ?_
  cases e with
  | call c => exact hno c rfl
  | _ => exact he

theorem quiet_look {pa : Option Nat} : Quiet (look pa) := by
  intro s hs
  unfold look
  simp only [wp_bind, wp_view, hs]
  exact hs

theorem quiet_kfree {pa : Nat} : Quiet (kfree L pa) := by
  unfold kfree
  refine quiet_look.bind fun _ => .when (.halt nofun) fun _ => ?_
  exact .bind (.change fun _ h => h) fun _ => .bind (.view _) fun _ => .bind (.change fun _ h => h) fun _ => .change fun _ h => h

theorem quiet_kalloc : Quiet kalloc := by
  unfold kalloc
  refine quiet_look.bind fun _ => .bind (.view _) fun _ => .ite (fun _ => .pure _) fun _ => ?_
  refine .bind (.view _) fun _ => .ite (fun _ => .pure _) fun _ => ?_
  exact .bind (.view _) fun _ => .bind (.change fun _ h => h) fun _ => .bind (.change fun _ h => h) fun _ => .pure _

theorem quiet_walkFrom {va level p : Nat} {alloc : Bool} : Quiet (walkFrom va alloc level p) := by
  induction level generalizing p with
  | zero => exact .pure _
  | succ level ih =>
    refine .bind (.view _) fun _ => .ite (fun _ => ih) fun _ => .ite (fun _ => .pure _) fun _ => ?_
    refine quiet_kalloc.bind fun _ => .ite (fun _ => .pure _) fun _ => ?_
    exact .bind (.change fun _ h => h) fun _ => .bind (.change fun _ h => h) fun _ => ih

theorem quiet_walk {p va : Nat} {alloc : Bool} : Quiet (walk p va alloc) :=
  .when (.halt nofun) fun _ => quiet_walkFrom

theorem quiet_mapFrom {p last perm fuel a pa : Nat} : Quiet (mapFrom p last perm fuel a pa) := by
  induction fuel generalizing a pa with
  | zero => exact .halt nofun
  | succ fuel ih =>
    refine quiet_walk.bind fun _ => .ite (fun _ => .pure _) fun _ => .bind (.view _) fun _ => ?_
    refine .when (.halt nofun) fun _ => .bind (.change fun _ h => h) fun _ => ?_
    exact .ite (fun _ => .pure _) fun _ => ih

theorem quiet_mappages {p va size pa perm : Nat} : Quiet (mappages p va size pa perm) := by
  unfold mappages
  refine .when (.halt nofun) fun _ => ?_
  refine .when (.halt nofun) fun _ => ?_
  exact .when (.halt nofun) fun _ => quiet_mapFrom

theorem quiet_uvmunmap {p va n : Nat} {doFree : Bool} : Quiet (uvmunmap L p va n doFree) := by
  refine .when (.halt nofun) fun _ => .bind (.forUp nofun fun a => ?_) fun _ => .pure _
  refine quiet_walk.bind fun _ => .when (.halt nofun) fun _ => .bind (.view _) fun _ => ?_
  refine .when (.halt nofun) fun _ => ?_
  refine .when (.halt nofun) fun _ => ?_
  exact .when quiet_kfree fun _ => .bind (.change fun _ h => h) fun _ => .pure _

theorem quiet_uvmdealloc {p oldsz newsz : Nat} : Quiet (uvmdealloc L p oldsz newsz) :=
  .ite (fun _ => .pure _) fun _ => .when quiet_uvmunmap fun _ => .pure _

theorem quiet_uvmalloc {p oldsz newsz xperm : Nat} : Quiet (uvmalloc L p oldsz newsz xperm) := by
  refine .ite (fun _ => .pure _) fun _ => .bind (.forUp nofun fun a => ?_) fun _ => .pure _
  refine quiet_kalloc.bind fun _ => .ite (fun _ => quiet_uvmdealloc.bind fun _ => .pure _) fun _ => ?_
  refine .bind (.change fun _ h => h) fun _ => quiet_mappages.bind fun _ => .ite (fun _ => ?_) fun _ => .pure _
  exact quiet_kfree.bind fun _ => quiet_uvmdealloc.bind fun _ => .pure _

theorem quiet_growproc {i : Slot} {n : BitVec 32} : Quiet (growproc L i n) := by
  refine .bind (.view _) fun _ => .ite (fun _ => ?_) fun _ => ?_
  · exact quiet_uvmalloc.bind fun _ => .ite (fun _ => .pure _) fun _ => .bind (.change fun _ h => h) fun _ => .pure _
  · refine .ite (fun _ => ?_) fun _ => .pure _
    exact quiet_uvmdealloc.bind fun _ => .bind (.change fun _ h => h) fun _ => .pure _

theorem quiet_freewalk {d p : Nat} : Quiet (freewalk L d p) := by
  induction d generalizing p with
  | zero => exact .halt nofun
  | succ d ih =>
    refine .bind (.loop fun k => .bind (.view _) fun _ => ?_) fun _ => quiet_kfree
    exact .ite (fun _ => ih.bind fun _ => .change fun _ h => h) fun _ => .ite (fun _ => .halt nofun) fun _ => .pure _

theorem quiet_uvmfree {p sz : Nat} : Quiet (uvmfree L p sz) := by
  unfold uvmfree
  exact .when quiet_uvmunmap fun _ => quiet_freewalk

theorem quiet_procFreepagetable {p sz : Nat} : Quiet (procFreepagetable L p sz) :=
  quiet_uvmunmap.bind fun _ => quiet_uvmunmap.bind fun _ => quiet_uvmfree

theorem quiet_procPagetable {tf : Nat} : Quiet (procPagetable L tf) := by
  refine .bind ?_ fun _ => .ite (fun _ => .pure _) fun _ => quiet_mappages.bind fun _ => ?_
  · exact quiet_kalloc.bind fun _ => .ite (fun _ => .pure _) fun _ => .bind (.change fun _ h => h) fun _ => .pure _
  refine .ite (fun _ => quiet_uvmfree.bind fun _ => .pure _) fun _ => quiet_mappages.bind fun _ => ?_
  exact .ite (fun _ => quiet_uvmunmap.bind fun _ => quiet_uvmfree.bind fun _ => .pure _) fun _ => .pure _

theorem quiet_freeproc {i : Slot} : Quiet (freeproc L i) := by
  unfold freeproc
  refine .bind (.view _) fun _ => .when quiet_kfree fun _ => .bind (.change fun _ h => h) fun _ => ?_
  exact .when quiet_procFreepagetable fun _ => .change fun _ h => h

theorem quiet_allocproc : Quiet (allocproc L) := by
  refine .bind (.view _) fun j => ?_
  cases j with
  | none => exact .pure _
  | some j =>
    refine .bind (.change fun _ h => h) fun _ => quiet_kalloc.bind fun _ => .bind (.change fun _ h => h) fun _ => ?_
    refine .ite (fun _ => quiet_freeproc.bind fun _ => .pure _) fun _ => quiet_procPagetable.bind fun _ => ?_
    exact .bind (.change fun _ h => h) fun _ => .ite (fun _ => quiet_freeproc.bind fun _ => .pure _) fun _ => .pure _

theorem quiet_uvmcopy {old new sz : Nat} : Quiet (uvmcopy L old new sz) := by
  refine .bind (.forUp nofun fun a => ?_) fun err => ?_
  · refine quiet_walk.bind fun _ => .when (.halt nofun) fun _ => .bind (.view _) fun _ => .when (.halt nofun) fun _ => ?_
    refine quiet_kalloc.bind fun _ => .ite (fun _ => .pure _) fun _ => .bind (.change fun _ h => h) fun _ => ?_
    exact quiet_mappages.bind fun _ => .ite (fun _ => quiet_kfree.bind fun _ => .pure _) fun _ => .pure _
  · cases err with
    | none => exact .pure _
    | some a => exact quiet_uvmunmap.bind fun _ => .pure _

theorem quiet_walkaddr {p va : Nat} : Quiet (walkaddr p va) := by
  unfold walkaddr
  refine .ite (fun _ => .pure _) fun _ => quiet_walk.bind fun _ => .ite (fun _ => .pure _) fun _ => ?_
  exact .bind (.view _) fun _ => .ite (fun _ => .pure _) fun _ => .ite (fun _ => .pure _) fun _ => .pure _

theorem quiet_uvmclear {p va : Nat} : Quiet (uvmclear p va) := by
  unfold uvmclear
  exact quiet_walk.bind fun _ => .when (.halt nofun) fun _ => .bind (.view _) fun _ => .change fun _ h => h

theorem quiet_copyoutFrom {p fuel dstva : Nat} {src : List UInt8} : Quiet (copyoutFrom p fuel dstva src) := by
  induction fuel generalizing dstva src with
  | zero => exact .halt nofun
  | succ fuel ih =>
    unfold copyoutFrom
    refine .ite (fun _ => .pure _) fun _ => .ite (fun _ => .pure _) fun _ => quiet_walk.bind fun _ => ?_
    refine .ite (fun _ => .pure _) fun _ => .bind (.view _) fun _ => .ite (fun _ => .pure _) fun _ => ?_
    exact .bind (.change fun _ h => h) fun _ => ih

theorem quiet_copyout {p dstva : Nat} {src : List UInt8} : Quiet (copyout p dstva src) := quiet_copyoutFrom

theorem quiet_pushStrings {p stackbase argc sp : Nat} {argv : List Nat} : Quiet (pushStrings p stackbase argv argc sp) := by
  induction argv generalizing argc sp with
  | nil => exact .pure _
  | cons arg argv ih =>
    unfold pushStrings
    refine .ite (fun _ => .pure _) fun _ => .bind (.view _) fun _ => .ite (fun _ => .pure _) fun _ => ?_
    exact quiet_copyout.bind fun _ => .ite (fun _ => .pure _) fun _ => ih.bind fun _ => .pure _

theorem quiet_pushArgs {p sz : Nat} {argv : List Nat} : Quiet (pushArgs p sz argv) := by
  unfold pushArgs
  generalize sz - USERSTACK * PGSIZE = stackbase
  dsimp only
  refine quiet_pushStrings.bind fun r => ?_
  rcases r with - | ⟨sp, ustack⟩
  · exact .pure _
  · dsimp only
    generalize sub64 sp ((ustack.length + 1) * 8) = sp'
    exact .ite (fun _ => .pure _) fun _ => quiet_copyout.bind fun _ => .ite (fun _ => .pure _) fun _ => .pure _

theorem quiet_execBad {p sz : Nat} : Quiet (execBad L p sz) := quiet_procFreepagetable.bind fun _ => .pure _

theorem quiet_execStack {i : Slot} {path : List UInt8} {argv : List Nat} {p sz entry : Nat} :
    Quiet (execStack L i path argv p sz entry) := by
  unfold execStack
  generalize (USERSTACK + 1) * PGSIZE = size
  dsimp only
  refine quiet_uvmalloc.bind fun sz1 => .ite (fun _ => quiet_execBad) fun _ => ?_
  generalize sub64 sz1 size = guard
  refine .bind quiet_uvmclear fun _ => quiet_pushArgs.bind fun r => ?_
  cases r with
  | none => exact quiet_execBad
  | some sp =>
    refine .bind (.bind (.view _) fun _ => .bind (.change fun _ h => h) fun _ => ?_) fun _ => .pure _
    refine .bind (.change fun _ h => h) fun _ => .bind (.change fun _ h => h) fun _ => .bind (.change fun _ h => h) fun _ => ?_
    exact .bind (.change fun _ h => h) fun _ => .bind (.change fun _ h => h) fun _ => quiet_procFreepagetable

end

end Xv6.Vm
