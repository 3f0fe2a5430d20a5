import Mathlib.Data.List.Nodup
import Xv6.Lib.Sum
import Xv6.Proc.Table

/-! Pids, parents and reaping over all runs of the process table. -/

namespace Xv6.ProcTable
open Lib

inductive Kind where
  | unused | used | live | zombie
  deriving DecidableEq, Repr

def State.kind : State → Kind
  | .unused => .unused
  | .used => .used
  | .sleeping | .runnable | .running => .live
  | .zombie => .zombie

structure Core where
  kind : Kind
  pid : Int
  parent : Option Slot
  xstate : Int

def Proc.core (x : Proc) : Core := ⟨x.state.kind, x.pid, x.parent, x.xstate⟩

def Event.exitPid : Event → Option Int
  | .exited pid _ => some pid
  | _ => none

def Event.reapPid : Event → Option Int
  | .reaped _ _ pid _ _ => some pid
  | _ => none

def Event.Ok (hist : List Event) : Event → Prop
  | .exited _ _ => True
  | .reaped waiter parent pid addr copied =>
    parent = some waiter ∧ ∃ status, .exited pid status ∈ hist ∧ copied = if addr then some status else none
  | .childless waiter parents => ∀ q, parents q ≠ some waiter

/-- One slot against the history, when `calls` pids have been given out. -/
structure SlotOk (calls : Nat) (hist : List Event) (x : Core) : Prop where
  unused : x.kind = .unused → x.parent = none
  pid : x.kind ≠ .unused → 1 ≤ x.pid ∧ x.pid ≤ calls
  zombie : x.kind = .zombie → .exited x.pid x.xstate ∈ hist ∧ x.pid ∉ hist.filterMap Event.reapPid
  going : x.kind = .used ∨ x.kind = .live → x.pid ∉ hist.filterMap Event.exitPid

structure HistOk (calls : Nat) (hist : List Event) : Prop where
  exits : (hist.filterMap Event.exitPid).Nodup
  reaps : (hist.filterMap Event.reapPid).Nodup
  old : ∀ pid ∈ hist.filterMap Event.exitPid, pid ≤ calls
  events : ∀ e ∈ hist, e.Ok hist

structure Table (c : Slot → Core) (init : Slot) (calls : Nat) (hist : List Event) : Prop where
  slot : ∀ i, SlotOk calls hist (c i)
  init : (c init).kind = .live
  parent : ∀ i q, (c i).parent = some q → (c q).kind = .live
  inj : ∀ i j, (c i).kind ≠ .unused → (c j).kind ≠ .unused → (c i).pid = (c j).pid → i = j
  hist : HistOk calls hist

theorem Event.Ok.mono {hist hist' : List Event} {e : Event} (h : e.Ok hist) (hsub : ∀ e ∈ hist, e ∈ hist') :
    e.Ok hist' := by
  cases e with
  | exited pid status => trivial
  | reaped waiter parent pid addr copied =>
    obtain ⟨hp, status, hs, hc⟩ := h
    exact ⟨hp, status, hsub _ hs, hc⟩
  | childless waiter parents => exact h

theorem HistOk.reaped_exited {calls : Nat} {hist : List Event} (h : HistOk calls hist) {pid : Int}
    (hp : pid ∈ hist.filterMap Event.reapPid) : pid ∈ hist.filterMap Event.exitPid := by
  obtain ⟨e, he, hpid⟩ := List.mem_filterMap.mp hp
  cases e with
  | reaped waiter parent pid' addr copied =>
    cases hpid
    obtain ⟨-, status, hs, -⟩ := h.events _ he
    exact List.mem_filterMap.mpr ⟨_, hs, rfl⟩
  | _ => cases hpid

theorem mem_filterMap_append {α β : Type} {f : α → Option β} {l : List α} {a : α} {b : β} :
    b ∈ (l ++ [a]).filterMap f ↔ b ∈ l.filterMap f ∨ f a = some b := by
  simp [List.mem_filterMap]

theorem nodup_filterMap_append {α β : Type} {f : α → Option β} {l : List α} {a : α} (h : (l.filterMap f).Nodup)
    (hnew : ∀ b, f a = some b → b ∉ l.filterMap f) : ((l ++ [a]).filterMap f).Nodup := by
  rw [List.filterMap_append]
  cases ha : f a with
  | none => simpa [ha] using h
  | some b =>
    have hb := hnew b ha
    simp only [List.filterMap_cons, ha, List.filterMap_nil]
    exact List.nodup_append.mpr ⟨h, List.nodup_singleton b, fun x hx y hy hxy => by
      rw [List.mem_singleton] at hy
      exact hb (hy ▸ hxy ▸ hx)⟩

theorem HistOk.append {calls : Nat} {hist : List Event} {e : Event} (h : HistOk calls hist) (hok : e.Ok hist)
    (hexit : ∀ pid, e.exitPid = some pid → pid ∉ hist.filterMap Event.exitPid ∧ pid ≤ calls)
    (hreap : ∀ pid, e.reapPid = some pid → pid ∉ hist.filterMap Event.reapPid) : HistOk calls (hist ++ [e]) where
  exits := nodup_filterMap_append h.exits fun pid hp => (hexit pid hp).1
  reaps := nodup_filterMap_append h.reaps hreap
  old pid hp := by
    rcases mem_filterMap_append.mp hp with hp | hp
    · exact h.old pid hp
    · exact (hexit pid hp).2
  events e' he := by
    have hsub : ∀ e' ∈ hist, e' ∈ hist ++ [e] := fun _ => List.mem_append_left _
    rcases List.mem_append.mp he with he | he
    · exact (h.events e' he).mono hsub
    · rw [List.mem_singleton.mp he]; exact hok.mono hsub

theorem SlotOk.append {calls : Nat} {hist : List Event} {e : Event} {x : Core} (h : SlotOk calls hist x)
    (hreap : x.kind = .zombie → e.reapPid ≠ some x.pid)
    (hexit : x.kind = .used ∨ x.kind = .live → e.exitPid ≠ some x.pid) : SlotOk calls (hist ++ [e]) x where
  unused := h.unused
  pid := h.pid
  zombie hz := by
    refine ⟨List.mem_append_left _ (h.zombie hz).1, fun hm => ?_⟩
    rcases mem_filterMap_append.mp hm with hm | hm
    · exact (h.zombie hz).2 hm
    · exact hreap hz hm
  going hg hm := by
    rcases mem_filterMap_append.mp hm with hm | hm
    · exact h.going hg hm
    · exact hexit hg hm

section
variable {c : Slot → Core} {init : Slot} {calls : Nat} {hist : List Event} {i : Slot} {x : Core}

theorem Table.update {calls' : Nat} {hist' : List Event} (h : Table c init calls hist)
    (hx : SlotOk calls' hist' x) (hslot : ∀ j, j ≠ i → SlotOk calls' hist' (c j)) (hhist : HistOk calls' hist')
    (hlive : (c i).kind = .live → x.kind = .live ∨ (i ≠ init ∧ ∀ j, (c j).parent ≠ some i))
    (hpar : ∀ q, x.parent = some q → (c i).parent = some q ∨ (Function.update c i x q).kind = .live)
    (hinj : x.kind ≠ .unused → ∀ j, j ≠ i → (c j).kind ≠ .unused → (c j).pid ≠ x.pid) :
    Table (Function.update c i x) init calls' hist' where
  slot j := by
    rcases eq_or_ne j i with rfl | hj
    · rw [Function.update_self]; exact hx
    · rw [Function.update_of_ne hj]; exact hslot j hj
  init := by
    rcases eq_or_ne init i with hi | hi
    · rcases hlive (hi ▸ h.init) with hl | ⟨hne, -⟩
      · rw [hi, Function.update_self]; exact hl
      · exact absurd hi.symm hne
    · rw [Function.update_of_ne hi]; exact h.init
  parent := by
    -- an old parent is live, and still is
    have keep : ∀ j q, (c j).parent = some q → (Function.update c i x q).kind = .live := by
      intro j q hq
      rcases eq_or_ne q i with rfl | hqi
      · rcases hlive (h.parent j q hq) with hl | ⟨-, hno⟩
        · rw [Function.update_self]; exact hl
        · exact absurd hq (hno j)
      · rw [Function.update_of_ne hqi]; exact h.parent j q hq
    intro j q hq
    rcases eq_or_ne j i with rfl | hj
    · rw [Function.update_self] at hq
      rcases hpar q hq with hq | hl
      · exact keep j q hq
      · exact hl
    · rw [Function.update_of_ne hj] at hq
      exact keep j q hq
  inj j k hj hk he := by
    rcases eq_or_ne j i with rfl | hji
    · rcases eq_or_ne k j with rfl | hkj
      · rfl
      · rw [Function.update_self] at hj he
        rw [Function.update_of_ne hkj] at hk he
        exact absurd he.symm (hinj hj k hkj hk)
    · rw [Function.update_of_ne hji] at hj he
      rcases eq_or_ne k i with rfl | hki
      · rw [Function.update_self] at hk he
        exact absurd he (hinj hk j hji hj)
      · rw [Function.update_of_ne hki] at hk he
        exact h.inj j k hj hk he
  hist := hhist

theorem SlotOk.mono (h : SlotOk calls hist x) : SlotOk (calls + 1) hist x where
  unused := h.unused
  pid hk := by
    have := h.pid hk
    omega
  zombie := h.zombie
  going := h.going

theorem HistOk.mono (h : HistOk calls hist) : HistOk (calls + 1) hist where
  exits := h.exits
  reaps := h.reaps
  old pid hp := by
    have := h.old pid hp
    omega
  events := h.events

theorem SlotOk.of_unused (hk : x.kind = .unused) (hpar : x.parent = none) : SlotOk calls hist x where
  unused _ := hpar
  pid hne := absurd hk hne
  zombie hz := by rw [hk] at hz; cases hz
  going hg := by simp [hk] at hg

theorem Table.alloc (h : Table c init calls hist) (hi : (c i).kind = .unused) (hk : x.kind = .used)
    (hpid : x.pid = calls + 1) (hpar : x.parent = (c i).parent) :
    Table (Function.update c i x) init (calls + 1) hist := by
  refine h.update ?_ (fun j _ => (h.slot j).mono) h.hist.mono (fun hl => ?_) (fun q hq => Or.inl (hpar ▸ hq))
    fun _ j _ hj he => ?_
  · refine ⟨fun hu => ?_, fun _ => by omega, fun hz => ?_, fun _ hmem => ?_⟩
    · rw [hk] at hu; cases hu
    · rw [hk] at hz; cases hz
    · have := h.hist.old _ hmem
      omega
  · rw [hi] at hl; cases hl
  · have := (h.slot j).pid hj
    omega

theorem Table.free (h : Table c init calls hist) (hi : (c i).kind = .unused) (hk : x.kind = .unused)
    (hpar : x.parent = none) : Table (Function.update c i x) init (calls + 1) hist := by
  refine h.update (.of_unused hk hpar) (fun j _ => (h.slot j).mono) h.hist.mono (fun hl => ?_) (fun q hq => ?_)
    fun hne => absurd hk hne
  · rw [hi] at hl; cases hl
  · rw [hpar] at hq; cases hq

theorem Table.setParent (h : Table c init calls hist) {q : Slot} (hi : (c i).kind ≠ .unused) (hq : (c q).kind = .live) :
    Table (Function.update c i { c i with parent := some q }) init calls hist := by
  have hs := h.slot i
  refine h.update ⟨fun hu => absurd hu hi, hs.pid, hs.zombie, hs.going⟩ (fun j _ => h.slot j) h.hist Or.inl
    (fun r hr => ?_) fun _ j hj hk he => hj (h.inj j i hk hi he)
  cases hr
  right
  rcases eq_or_ne q i with rfl | hqi
  · rw [Function.update_self]; exact hq
  · rw [Function.update_of_ne hqi]; exact hq

theorem Table.start (h : Table c init calls hist) (hi : (c i).kind = .used) :
    Table (Function.update c i { c i with kind := .live }) init calls hist := by
  have hs := h.slot i
  have hne : (c i).kind ≠ .unused := by rw [hi]; simp
  exact h.update ⟨nofun, fun _ => hs.pid hne, nofun, fun _ => hs.going (Or.inl hi)⟩
    (fun j _ => h.slot j) h.hist (fun _ => Or.inl rfl) (fun _ => Or.inl) fun _ j hj hk he => hj (h.inj j i hk hne he)

theorem Table.die (h : Table c init calls hist) {status : Int} (hi : (c i).kind = .live) (hinit : i ≠ init)
    (hkids : ∀ j, (c j).parent ≠ some i) :
    Table (Function.update c i { c i with kind := .zombie, xstate := status }) init calls
      (hist ++ [.exited (c i).pid status]) := by
  have hs := h.slot i
  have hne : (c i).kind ≠ .unused := by rw [hi]; simp
  have hnew : (c i).pid ∉ hist.filterMap Event.exitPid := hs.going (Or.inr hi)
  refine h.update ?_ (fun j hj => (h.slot j).append ?_ ?_) (h.hist.append trivial ?_ ?_)
    (fun _ => Or.inr ⟨hinit, hkids⟩) (fun _ => Or.inl) fun _ j hj hk he => hj (h.inj j i hk hne he)
  · refine ⟨nofun, fun _ => hs.pid hne, fun _ => ⟨by simp, fun hm => ?_⟩, fun hg => by simp at hg⟩
    rcases mem_filterMap_append.mp hm with hm | hm
    · exact hnew (h.hist.reaped_exited hm)
    · cases hm
  · simp [Event.reapPid]
  · rintro hg hm
    have hj' : (c j).kind ≠ .unused := by rcases hg with hg | hg <;> simp [hg]
    exact hj (h.inj j i hj' hne (by simpa [Event.exitPid] using hm.symm))
  · intro pid hp
    cases hp
    exact ⟨hnew, (hs.pid hne).2⟩
  · simp [Event.reapPid]

theorem Table.reap (h : Table c init calls hist) {w : Slot} {addr : Bool} (hi : (c i).kind = .zombie)
    (hw : (c i).parent = some w) (hk : x.kind = .unused) (hpar : x.parent = none) :
    Table (Function.update c i x) init calls
      (hist ++ [.reaped w (c i).parent (c i).pid addr (if addr then some (c i).xstate else none)]) := by
  have hne : (c i).kind ≠ .unused := by rw [hi]; simp
  obtain ⟨hexited, hnew⟩ := (h.slot i).zombie hi
  refine h.update (.of_unused hk hpar) (fun j hj => (h.slot j).append (fun hz hm => ?_) (by simp [Event.exitPid]))
    (h.hist.append ⟨hw, (c i).xstate, hexited, rfl⟩ (by simp [Event.exitPid]) ?_) (fun hl => ?_) (fun q hq => ?_)
    fun hne => absurd hk hne
  · exact hj (h.inj j i (by simp [hz]) hne (by simpa [Event.reapPid] using hm.symm))
  · intro pid hp
    cases hp
    exact hnew
  · rw [hi] at hl; cases hl
  · rw [hpar] at hq; cases hq

theorem Table.childless (h : Table c init calls hist) {w : Slot} (hkids : ∀ j, (c j).parent ≠ some w) :
    Table c init calls (hist ++ [.childless w fun j => (c j).parent]) where
  slot j := (h.slot j).append (by simp [Event.reapPid]) (by simp [Event.exitPid])
  init := h.init
  parent := h.parent
  inj := h.inj
  hist := h.hist.append hkids (by simp [Event.exitPid]) (by simp [Event.reapPid])

end

end Xv6.ProcTable
