import Xv6.Vm.Boot

/-! What holds of physical memory and of address spaces over whole runs of system calls. -/

namespace Xv6.Vm
open Lib

/-- Every page of the allocator is on the free list once, or has exactly one owner. -/
def Owned (L : Layout) (s : Sys) (T : Temps) : Prop := ∃ l, Chain s.page s.freelist l ∧ Exact (Stock L) l (own s T)

def Reachable (L : Layout) : Sys → Prop := Reach (Booted L) (step L) fun _ _ => True

section
variable {L : Layout} {s t : Sys} {i j : Slot}

theorem Inv.start {a : Action} (h : Inv L s Temps.empty) : Inv L (s.start a) Temps.empty := by
  have hpage : (s.start a).page = s.page := rfl
  obtain ⟨hs, hent⟩ := h.rep.reproc hpage rfl (fun _ => rfl) (fun _ => rfl) rfl rfl
  exact ⟨hs, fun i => (h.slots i).congr rfl fun v => hent (some i) 2 v⟩

theorem inv_dispatch {c : Call} (h : Inv L s Temps.empty) (hi : (s.proc i).state = .runnable) :
    wp (dispatch L i c) (fun _ s' => Inv L s' Temps.empty) (fun e s' => Looked L e s' ∨ e = .panic "init exiting") s := by
  have weaken : ∀ {α : Type} {m : VmM α}, wp m (fun _ s' => Inv L s' Temps.empty) (Looked L) s →
      wp (do let _ ← m) (fun _ s' => Inv L s' Temps.empty) (fun e s' => Looked L e s' ∨ e = .panic "init exiting") s :=
    fun hm => wp_seq (wp_post hm (fun _ _ ht => ht)) fun _ _ he => Or.inl he
  cases c with
  | fork => exact weaken (inv_fork h hi)
  | sbrk n => exact weaken (inv_growproc h (by rw [hi]; decide))
  | exec namei upath uargv => exact weaken (inv_sysExec h hi)
  | exit status => exact inv_exit h hi
  | wait addr => exact weaken (inv_wait h hi)
  | pipe f0 f1 => exact weaken (inv_pipealloc h)
  | pipeclose pa writable => exact wp_mono (inv_pipeclose h) (fun _ _ ht => ht) fun _ _ he => Or.inl he
  | write va byte =>
    rw [dispatch, wp_bind, wp_view]
    exact weaken (inv_write h hi)

theorem step_ends {a : Action} (h : Inv L s Temps.empty) :
    (∀ t, step L s a = .ok t → Inv L t Temps.empty) ∧
    ∀ e t, step L s a = .error (e, t) → Looked L e t ∨ e = .panic "init exiting" := by
  unfold step
  split
  · next hi =>
    have key := inv_dispatch (c := a.call) (h.start (a := a)) hi
    unfold wp at key
    cases hrun : dispatch L a.proc a.call (s.start a) with
    | ok x t =>
      rw [hrun] at key
      exact ⟨fun t' ht => Except.ok.inj ht ▸ key, nofun⟩
    | error e t =>
      rw [hrun] at key
      refine ⟨nofun, fun e' t' ht => ?_⟩
      cases ht
      exact key
  · exact ⟨fun t ht => Except.ok.inj ht ▸ h, nofun⟩

theorem inv_reach (h : Reachable L s) : Inv L s Temps.empty :=
  Reach.invariant (I := fun s => Inv L s Temps.empty) (fun _ h0 => h0.inv) (fun _ t _ hs _ hstep => (step_ends hs).1 t hstep) h

/-- Between system calls, and at every call of `kalloc` and `kfree`, the pages are shared out exactly among the free
    list, the processes, the pipes, the kernel and the operation in progress. -/
theorem page_ownership (h : Reachable L s) :
    Owned L s Temps.empty ∧
    (∀ i, (s.proc i).state = .unused → (s.proc i).pagetable = 0 ∧ (s.proc i).trapframe = 0) ∧
    (∀ i j v w pa, i ≠ j → own s Temps.empty (.user (some i) v) = some pa →
      own s Temps.empty (.user (some j) w) ≠ some pa) ∧
    (∀ a c t, step L s a = .error (.call c, t) →
      ∃ T, Owned L t T ∧ ∀ pa, c = some pa → ∃ o, own t T o = some pa) := by
  have hinv := inv_reach h
  refine ⟨hinv.rep.exact, fun i hun => ?_, fun i j v w pa hij hi hj => ?_, fun a c t hstep => ?_⟩
  · obtain ⟨hpt, htf, -⟩ := (hinv.slots i).unused hun
    exact ⟨hpt, htf⟩
  · have hsame := hinv.rep.inj hi hj
    injection hsame with htab
    exact hij (Option.some.inj htab)
  · rcases (step_ends hinv).2 _ t hstep with ⟨_, T, hrep, hfreed⟩ | he
    · exact ⟨T, hrep.exact, hfreed⟩
    · cases he

/-- The page-table entry of process `i` for page number `v`, which is 0 where a table on the way is missing. -/
def pteOf (s : Sys) (i : Slot) (v : Nat) : Nat := entry s.page (s.proc i).pagetable 2 v

theorem Rep.valid_iff {X : Pins} {T : Temps} {r : Tab} {v : Nat} (h : Rep L X s T) :
    has (lv s T r v) PTE_V = true ↔ lv s T r v ≠ 0 := by
  rcases h.leaf r v with h0 | ⟨pa, f, hpte, hV, -⟩
  · simp [h0]
  · rw [hpte.has_eq (by decide), hV]
    exact iff_of_true rfl (hpte.ne_zero hV)

theorem Space.mapped_iff {T : Temps} {r : Tab} {n tf v : Nat} (h : Space L s T r n tf) :
    lv s T r v ≠ 0 ↔ v < n ∨ v = USERPAGES ∨ v = USERPAGES + 1 := by
  constructor
  · intro hne
    by_contra hout
    push Not at hout
    obtain ⟨h1, h2, h3⟩ := hout
    rcases Nat.lt_or_ge v USERPAGES with hlt | hge
    · exact hne (h.user.rest v h1 hlt)
    · exact hne (h.top v (by omega))
  · rintro (hlt | rfl | rfl)
    · exact h.user.mapped v hlt
    · exact h.frame.ne_zero rfl
    · exact h.tramp.ne_zero rfl

/-- The valid entries of a process in use are those of its memory, the trapframe and the trampoline, the latter two
    not for the user. No system call ends in a panic, but for the exit of `init`. -/
theorem address_space (h : Reachable L s) :
    (∀ i, (s.proc i).state ≠ .unused →
      (∀ v, has (pteOf s i v) PTE_V = true ↔
        v * PGSIZE < pgRoundUp (s.proc i).sz ∨ v * PGSIZE = TRAPFRAME ∨ v * PGSIZE = TRAMPOLINE) ∧
      has (pteOf s i (TRAPFRAME / PGSIZE)) PTE_U = false ∧ has (pteOf s i (TRAMPOLINE / PGSIZE)) PTE_U = false ∧
      ∀ v, has (pteOf s i v) PTE_V = true → has (pteOf s i v) PTE_R = true) ∧
    ∀ a e t, step L s a = .error (e, t) → (∃ c, e = .call c) ∨ e = .panic "init exiting" := by
  have hinv := inv_reach h
  refine ⟨fun i hi => ?_, fun a e t hstep => ?_⟩
  · obtain ⟨hroot, hsp⟩ := hinv.space hi
    have hlv : ∀ v, pteOf s i v = lv s Temps.empty (some i) v := fun v => (ent_of_root hroot).symm
    have hpages : pages (s.proc i).sz ≤ 32768 := hinv.rep.le_pages hsp.user.mapped
    have hup : pgRoundUp (s.proc i).sz = pages (s.proc i).sz * PGSIZE := by
      refine pgRoundUp_eq ?_
      simp only [pages, PGSIZE] at hpages
      omega
    have hframe : TRAPFRAME / PGSIZE = USERPAGES := rfl
    have htramp : TRAMPOLINE / PGSIZE = USERPAGES + 1 := by decide
    refine ⟨fun v => ?_, ?_, ?_, fun v hV => ?_⟩
    · rw [hlv, hinv.rep.valid_iff, hsp.mapped_iff, hup, TRAPFRAME_eq, TRAMPOLINE_eq]
      simp only [PGSIZE]
      omega
    · rw [hlv, hframe]
      exact hsp.kernelTop _ (le_refl _)
    · rw [hlv, htramp]
      exact hsp.kernelTop _ (Nat.le_succ _)
    · rw [hlv] at hV ⊢
      rcases hinv.rep.leaf (some i) v with h0 | ⟨pa, f, hpte, -, hR⟩
      · rw [show lv s Temps.empty (some i) v = 0 from h0, has_zero] at hV
        cases hV
      · exact (hpte.has_eq (by decide)).trans hR
  · rcases (step_ends hinv).2 e t hstep with hlook | he
    · cases e with
      | call c => exact Or.inl ⟨c, rfl⟩
      | _ => exact hlook.elim
    · exact Or.inr he

end

def smallLayout : Layout where
  kend := PHYSTOP - 24 * PGSIZE
  trampoline := KERNBASE
  aligned := by decide
  base := le_refl _
  below := by decide
  kend_le := Nat.sub_le _ _

def coldProc : Proc :=
  { state := .unused, pid := 0, parent := none, xstate := 0, sz := 0, pagetable := 0, trapframe := 0, name := [] }

def coldSys : Sys :=
  { page := fun _ => Bytes.zero, freelist := 0, proc := fun _ => coldProc, initproc := ⟨0, zero_lt_NPROC⟩, nextpid := 1,
    pipes := [], kernel := [], refuse := fun _ => false, watch := none, calls := 0 }

def bootRun : Option Sys :=
  match boot smallLayout 2 coldSys with
  | .ok _ s => some s
  | .error _ _ => none

def forkActions : List Action :=
  [{ proc := ⟨0, zero_lt_NPROC⟩, call := .fork, refuse := fun _ => false, watch := none },
   { proc := ⟨1, one_lt_NPROC⟩, call := .sbrk 5000, refuse := fun _ => false, watch := none }]

def forkRun : Option Sys := bootRun.bind fun s => run (step smallLayout) (fun _ _ => true) s forkActions

theorem forkRun_isSome : forkRun.isSome = true := by decide +kernel

def forkedSys : Sys := forkRun.get forkRun_isSome

theorem forkedSys_reachable : Reachable smallLayout forkedSys := by
  have hrun : forkRun = some forkedSys := (Option.some_get forkRun_isSome).symm
  obtain ⟨s, hboot, hfork⟩ := Option.bind_eq_some_iff.mp hrun
  have hpage : (bootRun.map fun s => lv s Temps.empty (some s.initproc) 0 != 0) = some true := by decide +kernel
  refine Reach.of_run (fun _ _ _ => trivial) forkActions (.init ⟨⟨coldSys, 2, ⟨rfl, fun _ => rfl, rfl, rfl⟩, ?_⟩, ?_⟩) hfork
  · unfold bootRun at hboot
    split at hboot
    · next hok =>
      cases hboot
      exact hok
    · cases hboot
  · rw [hboot] at hpage
    simpa using hpage

theorem forkedSys_child : (forkedSys.proc ⟨1, by decide⟩).state ≠ .unused ∧ forkedSys.watch = none ∧
    (forkedSys.proc ⟨1, by decide⟩).sz = 9096 := by decide +kernel

theorem page_ownership_forked : Owned smallLayout forkedSys Temps.empty := (page_ownership forkedSys_reachable).1

theorem address_space_forked : (forkedSys.proc ⟨1, by decide⟩).sz = 9096 ∧
    (has (pteOf forkedSys ⟨1, by decide⟩ 2) PTE_V = true ↔
      2 * PGSIZE < pgRoundUp 9096 ∨ 2 * PGSIZE = TRAPFRAME ∨ 2 * PGSIZE = TRAMPOLINE) := by
  obtain ⟨hused, -, hsz⟩ := forkedSys_child
  have hpte := ((address_space forkedSys_reachable).1 ⟨1, by decide⟩ hused).1 2
  rw [hsz] at hpte
  exact ⟨hsz, hpte⟩

end Xv6.Vm
