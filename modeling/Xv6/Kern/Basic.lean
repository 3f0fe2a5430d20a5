import Xv6.Fs.File
import Xv6.Vm.Quiet

/-! The kernel's memory and its file system together, for the calls that concern both. -/

namespace Xv6.Kern
open Lib

structure Sys where
  mem : Vm.Sys
  fs : Fs.Sys

inductive Stop where
  | vm (e : Vm.Stop)
  | fs (e : Fs.Stop)

abbrev M := EStateM Stop Sys

def vm {α : Type} (m : Vm.VmM α) : M α := fun s =>
  match m s.mem with
  | .ok a t => .ok a { s with mem := t }
  | .error e t => .error (.vm e) { s with mem := t }

def fs {α : Type} (m : Fs.M α) : M α := fun s =>
  match m s.fs with
  | .ok a t => .ok a { s with fs := t }
  | .error e t => .error (.fs e) { s with fs := t }

section
variable {α : Type} {Q : α → Sys → Prop} {E : Stop → Sys → Prop} {s : Sys}

theorem wp_vm {m : Vm.VmM α} : wp (vm m) Q E s ↔
    wp m (fun a t => Q a { s with mem := t }) (fun e t => E (.vm e) { s with mem := t }) s.mem := by
  unfold wp vm
  cases m s.mem <;> rfl

theorem wp_fs {m : Fs.M α} : wp (fs m) Q E s ↔
    wp m (fun a t => Q a { s with fs := t }) (fun e t => E (.fs e) { s with fs := t }) s.fs := by
  unfold wp fs
  cases m s.fs <;> rfl

end

section
variable {L : Vm.Layout}

def Looked (e : Stop) : Prop := ∃ c, e = .vm (.call c)

theorem looked {e : Vm.Stop} {t : Vm.Sys} (h : Vm.Looked L e t) : Looked (.vm e) := by
  cases e with
  | call c => exact ⟨c, rfl⟩
  | _ => exact h.elim

abbrev Quiet {α : Type} (m : M α) : Prop := Safe (fun s : Sys => s.mem.watch = none) (fun e => ¬ Looked e) m

theorem quiet_vm {α : Type} {m : Vm.VmM α} (hm : Vm.Quiet m) : Quiet (vm m) := fun s hs =>
  wp_vm.mpr (wp_mono (hm s.mem hs) (fun _ _ ht => ht) fun _ _ he ⟨c, hc⟩ => he c (Stop.vm.inj hc))

theorem quiet_fs {α : Type} {m : Fs.M α} : Quiet (fs m) := fun s hs => by
  rw [wp_fs]
  unfold wp
  cases m s.fs with
  | ok a t => exact hs
  | error e t => exact fun ⟨c, hc⟩ => by cases hc

end

end Xv6.Kern
