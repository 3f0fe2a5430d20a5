import Xv6.Fs.Bytes
import Xv6.Fs.RefsCalls
import Xv6.Kern.Basic
import Xv6.Vm.Contents

/-! `fork` of `kernel/proc.c` with all that it copies: user memory, the trapframe, the open files and the current
    directory. -/

namespace Xv6.Kern
open Lib

def fork (L : Vm.Layout) (p : Fin NPROC) : M Int := do
  match ← vm (Vm.allocproc L) with
  | none => pure (-1)
  | some np =>
    let x ← view fun s => s.mem.proc p
    let y ← view fun s => s.mem.proc np
    let r ← vm (Vm.uvmcopy L x.pagetable y.pagetable x.sz)
    if r < 0 then
      vm (Vm.freeproc L np)
      pure (-1)
    else
      vm (Vm.onProc np (·.setSz x.sz))
      -- copy saved user registers, and cause fork to return 0 in the child
      vm (change fun t => t.setBytes y.trapframe (t.bytes x.trapframe Vm.tfSize))
      vm (Vm.store (y.trapframe + Vm.tfA0) 0)
      -- increment reference counts on open file descriptors
      fs ((List.finRange NOFILE).forM (Fs.forkFd p np))
      let cwd ← fs (Fs.cwdOf p)
      fs (Fs.idup cwd)
      fs (Fs.onProc np (·.setCwd (some cwd)))
      vm (Vm.onProc np (·.setName (Vm.safestrcpy x.name 16)))
      vm (Vm.onProc np (·.setParent (some p)))
      vm (Vm.onProc np (·.setState .runnable))
      pure y.pid

section
variable {s t : Fs.Sys} {p np : Fin NPROC} {rest : List (Fin NOFILE)} {fd : Fin NOFILE} {f : Fin NFILE}

def refsIn (x : Fs.Proc) (l : List (Fin NOFILE)) (f : Fin NFILE) : Nat := l.countP fun fd => x.ofile fd == some f

/-- The files when the child still lacks the descriptors in `rest`. -/
def sharing (s : Fs.Sys) (p np : Fin NPROC) (rest : List (Fin NOFILE)) : Fs.Sys :=
  { s with
    ftable := fun f => (s.ftable f).setRef
      ((s.ftable f).ref + refsIn (s.proc p) (List.finRange NOFILE) f - refsIn (s.proc p) rest f)
    proc := Function.update s.proc np
      { ofile := fun fd => if fd ∈ rest then none else (s.proc p).ofile fd, cwd := (s.proc np).cwd } }

theorem sharing_all (hfree : ∀ fd, (s.proc np).ofile fd = none) : sharing s p np (List.finRange NOFILE) = s := by
  have hf : (fun f => (s.ftable f).setRef ((s.ftable f).ref + refsIn (s.proc p) (List.finRange NOFILE) f -
      refsIn (s.proc p) (List.finRange NOFILE) f)) = s.ftable := by
    funext f
    rw [Int.add_sub_cancel]
    rfl
  have hp : (⟨fun fd => if fd ∈ List.finRange NOFILE then none else (s.proc p).ofile fd, (s.proc np).cwd⟩ : Fs.Proc) =
      s.proc np := by
    have ho : (fun fd => if fd ∈ List.finRange NOFILE then none else (s.proc p).ofile fd) = (s.proc np).ofile := by
      funext fd
      rw [if_pos (List.mem_finRange fd), hfree]
    rw [ho]
  unfold sharing
  rw [hf, hp, Function.update_eq_self]

theorem refsIn_cons (x : Fs.Proc) : refsIn x (fd :: rest) f = refsIn x rest f + if x.ofile fd = some f then 1 else 0 := by
  unfold refsIn
  rw [List.countP_cons]
  simp only [beq_iff_eq]

theorem wp_forkFd {E : Fs.Stop → Fs.Sys → Prop} (hne : p ≠ np) (hfd : fd ∉ rest)
    (href : ∀ f, (s.proc p).ofile fd = some f → 1 ≤ ((sharing s p np (fd :: rest)).ftable f).ref) :
    wp (Fs.forkFd p np fd) (fun _ t => t = sharing s p np rest) E (sharing s p np (fd :: rest)) := by
  have hproc : (sharing s p np (fd :: rest)).proc p = s.proc p := Function.update_of_ne hne _ _
  unfold Fs.forkFd
  rw [wp_bind, wp_view, hproc]
  cases hf : (s.proc p).ofile fd with
  | none =>
    rw [wp_pure]
    unfold sharing
    congr 1
    · funext f
      rw [refsIn_cons, hf, if_neg nofun, Nat.add_zero]
    · congr 2
      funext k
      by_cases hk : k = fd
      · rw [hk, if_pos List.mem_cons_self, if_neg hfd, hf]
      · simp only [List.mem_cons, hk, false_or]
  | some f =>
    have hle := href f hf
    unfold Fs.filedup
    simp only [wp_bind, wp_view, wp_stopIf]
    refine ⟨fun hlt => by omega, fun _ => ?_⟩
    simp only [Fs.onFile, Fs.onProc, wp_change]
    unfold sharing Fs.Sys.setProc Fs.Sys.setFile
    simp only [Function.update_self, Function.update_idem]
    congr 1
    · funext g
      by_cases hg : g = f
      · subst hg
        rw [Function.update_self, refsIn_cons, if_pos hf]
        simp only [Fs.File.setRef]
        congr 1
        push_cast
        omega
      · rw [Function.update_of_ne hg, refsIn_cons, hf, if_neg fun he => hg (Option.some.inj he).symm, Nat.add_zero]
    · congr 1
      simp only [Fs.Proc.setFd]
      congr 1
      funext k
      by_cases hk : k = fd
      · rw [hk, Function.update_self, if_neg hfd, hf]
      · rw [Function.update_of_ne hk]
        simp only [List.mem_cons, hk, false_or]

def shared (s : Fs.Sys) (p np : Fin NPROC) (cwd : Fin NINODE) : Fs.Sys :=
  { s with
    ftable := fun f => (s.ftable f).setRef ((s.ftable f).ref + refsIn (s.proc p) (List.finRange NOFILE) f)
    itable := Function.update s.itable cwd ((s.itable cwd).setRef ((s.itable cwd).ref + 1))
    proc := Function.update s.proc np (s.proc p) }

theorem wp_forkFds {E : Fs.Stop → Fs.Sys → Prop} (hne : p ≠ np) (hfree : ∀ fd, (s.proc np).ofile fd = none)
    (href : ∀ fd f, (s.proc p).ofile fd = some f → 1 ≤ (s.ftable f).ref) :
    wp ((List.finRange NOFILE).forM (Fs.forkFd p np)) (fun _ t => t = sharing s p np []) E s := by
  refine wp_post (wp_forM (I := fun rest t => t = sharing s p np rest ∧ rest.Nodup ∧ rest.Sublist (List.finRange NOFILE))
    ⟨(sharing_all hfree).symm, List.nodup_finRange _, List.Sublist.refl _⟩ ?_) fun _ t ht => ht.1
  rintro fd rest t ⟨rfl, hnd, hsub⟩
  obtain ⟨hfd, hnd⟩ := List.nodup_cons.mp hnd
  refine wp_post (wp_forkFd hne hfd fun f hf => ?_) fun _ u hu => ⟨hu, hnd, (List.sublist_cons_self fd rest).trans hsub⟩
  have h1 := href fd f hf
  have h2 : refsIn (s.proc p) (fd :: rest) f ≤ refsIn (s.proc p) (List.finRange NOFILE) f := hsub.countP_le
  show 1 ≤ (s.ftable f).ref + refsIn (s.proc p) (List.finRange NOFILE) f - refsIn (s.proc p) (fd :: rest) f
  omega

theorem shared_eq {cwd : Fin NINODE} (hcwd : (s.proc p).cwd = some cwd) :
    ((sharing s p np []).setInode cwd (((sharing s p np []).itable cwd).setRef (((sharing s p np []).itable cwd).ref + 1))).setProc np
      (((sharing s p np []).proc np).setCwd (some cwd)) = shared s p np cwd := by
  unfold sharing shared Fs.Sys.setInode Fs.Sys.setProc
  simp only [Function.update_self, Function.update_idem, refsIn, List.countP_nil, List.not_mem_nil, if_false, Fs.Proc.setCwd, ← hcwd]
  congr 1
  funext f
  exact congrArg _ (Int.sub_zero _)

end

open Vm in
theorem child_frame {s : Vm.Sys} {ptf ctf k : Nat} (hp : ptf % PGSIZE = 0) (hc : ctf % PGSIZE = 0) (hk : k < tfSize) :
    (((s.setBytes ctf (s.bytes ptf tfSize)).setWord (ctf + tfA0) 0).page ctf).get k =
      if tfA0 ≤ k ∧ k < tfA0 + 8 then 0 else (s.page ptf).get k := by
  have hdown : ∀ {a : Nat}, a % PGSIZE = 0 → pgRoundDown a = a := fun h => Nat.div_mul_cancel (Nat.dvd_of_mod_eq_zero h)
  have hA0 : pgRoundDown (ctf + tfA0) = ctf := pgRoundDown_add hc (by decide)
  have hmod : (ctf + tfA0) % PGSIZE = tfA0 := by
    rw [Nat.add_mod, hc]
    rfl
  have hkP : k < PGSIZE := Nat.lt_trans hk (by decide)
  unfold Sys.setWord Sys.setBytes Sys.bytes Sys.setPage
  simp only [hA0, hmod, hdown hc, hdown hp, hc, hp, Function.update_self, List.length_map, List.length_range, Bytes.put]
  rw [Bytes.get_write _ _ _ _ _ hkP, Bytes.get_write _ _ _ _ _ hkP]
  split
  · simp
  · rw [if_pos ⟨Nat.zero_le k, by omega⟩]
    simp [List.getD, List.getElem?_map, List.getElem?_range hk]

/-- The child is a copy of the parent. -/
structure Copied (s t : Sys) (p np : Fin NPROC) : Prop where
  slot : (s.mem.proc np).state = .unused
  pid : (t.mem.proc np).pid = s.mem.nextpid
  -- the same pages with the same flags and the same bytes, each in a page that was free
  user : ∀ v, Vm.userPage t.mem np v = Vm.userPage s.mem p v
  fresh : ∀ v, (Vm.userPage t.mem np v).isSome → Vm.IsFree s.mem (pte2pa (Vm.pteOf t.mem np v))
  frame : ∀ k < Vm.tfSize, (t.mem.page (t.mem.proc np).trapframe).get k =
    if Vm.tfA0 ≤ k ∧ k < Vm.tfA0 + 8 then 0 else (s.mem.page (s.mem.proc p).trapframe).get k
  -- nothing of the parent has changed
  parent : t.mem.proc p = s.mem.proc p
  parentPte : ∀ v, Vm.pteOf t.mem p v = Vm.pteOf s.mem p v
  parentUser : ∀ v, Vm.userPage t.mem p v = Vm.userPage s.mem p v
  parentFrame : t.mem.page (s.mem.proc p).trapframe = s.mem.page (s.mem.proc p).trapframe
  -- the same open files and the same current directory, with a reference more for each
  files : t.fs.proc np = s.fs.proc p
  others : ∀ q, q ≠ np → t.fs.proc q = s.fs.proc q
  file : ∀ f, t.fs.ftable f = (s.fs.ftable f).setRef
    ((s.fs.ftable f).ref + (List.finRange NOFILE).countP fun fd => (s.fs.proc p).ofile fd == some f)
  inode : ∀ e, t.fs.itable e = (s.fs.itable e).setRef
    ((s.fs.itable e).ref + if (s.fs.proc p).cwd = some e then 1 else 0)

/-- Nothing has changed but, perhaps, the next process identifier and unused slots. -/
structure Undone (s t : Sys) : Prop where
  proc : ∀ i, (s.mem.proc i).state ≠ .unused → t.mem.proc i = s.mem.proc i
  unused : ∀ i, (s.mem.proc i).state = .unused → (t.mem.proc i).state = .unused
  free : ∀ pa, Vm.IsFree t.mem pa ↔ Vm.IsFree s.mem pa
  fs : t.fs = s.fs

/-- Open files are referenced, the process has a current directory, and unused slots have no open files. -/
structure Ready (s : Sys) (p : Fin NPROC) : Prop where
  ref : ∀ fd f, (s.fs.proc p).ofile fd = some f → 1 ≤ (s.fs.ftable f).ref
  cwd : (s.fs.proc p).cwd.isSome
  spare : ∀ i, (s.mem.proc i).state = .unused → ∀ fd, (s.fs.proc i).ofile fd = none

section
open Vm
variable {L : Layout} {s s1 s2 s3 : Vm.Sys} {i j : Slot} {X : Pins}

theorem undone_mem (h : Inv L s Temps.empty) (hs : Rep L (snapAll s Temps.empty) s1 Temps.empty)
    (hok : ∀ i, SlotOk L s1 Temps.empty i) (hu : Vm.Undone s Temps.empty s1) (pa : Nat) : IsFree s1 pa ↔ IsFree s pa :=
  have hsince : Since L Temps.empty s s1 := ⟨⟨_, .refl, hs⟩, hu.proc, hu.pipes, hu.kernel⟩
  hsince.isFree_iff rfl h ⟨hs.forgetAll, hok⟩ hu.unused

theorem or_valid {f : Nat} (h : has f PTE_V = true) : f ||| PTE_V = f := by
  have hodd : f % 2 = 1 := by
    simp only [has, PTE_V, Nat.and_one_is_mod, bne_iff_ne, ne_eq] at h
    omega
  refine Nat.eq_of_testBit_eq fun k => ?_
  rw [Nat.testBit_or]
  cases k with
  | zero => simp [Nat.testBit_zero, hodd]
  | succ k => simp [PTE_V, Nat.testBit_succ]

/-- The memory of the new process after `uvmcopy`, when fields and the trapframe have been filled in. -/
structure MemCopy (L : Layout) (s s3 : Vm.Sys) (i j : Slot) : Prop where
  since : Since L Temps.empty s s3
  user : ∀ v, userPage s3 j v = userPage s i v
  fresh : ∀ v, (userPage s3 j v).isSome → IsFree s (pte2pa (pteOf s3 j v))

theorem memCopy (h : Inv L s Temps.empty) (hi : (s.proc i).state ≠ .unused) (hun : (s.proc j).state = .unused)
    (ha : Apart s Temps.empty s1 Temps.empty j) (hf : Fresh L s1 Temps.empty j)
    (hg : Grown s1 Temps.empty s2 (some j) 0 (pages (s.proc i).sz) (flagsAt s1 Temps.empty (some i)))
    (hfill : Filled (snapAll s Temps.empty) X s2 Temps.empty (some j) 0 (pages (s.proc i).sz)
      fun v => snapAll s Temps.empty (pte2pa (lv s1 Temps.empty (some i) v)))
    (hs3 : Rep L X s3 Temps.empty) (hd : Dressed s2 Temps.empty s3 j) : MemCopy L s s3 i j := by
  have hij : i ≠ j := fun he => hi (he ▸ hun)
  obtain ⟨hroot, hsp⟩ := h.space hi
  have hU := h.pages_le hi
  have ha2 : Apart s1 Temps.empty s2 Temps.empty j := ⟨fun k _ => by rw [hg.kept.proc], hg.kept.initproc, hg.kept.pipes,
    hg.kept.kernel, fun k v hk => hg.old _ v fun he => hk (Option.some.inj he.1)⟩
  have ha3 := ha.trans (ha2.trans hd.apart)
  have hsince : Since L Temps.empty s s3 :=
    ⟨⟨X, hfill.le, hs3⟩, fun k hk => ha3.proc k fun he => hk (he ▸ hun), ha3.pipes, ha3.kernel⟩
  have hroot3 : root s3 Temps.empty (some j) = some (s3.proc j).pagetable :=
    root_slot (by rw [hd.pagetable, hg.kept.proc]; exact hf.pagetable)
  have hlv3 : ∀ v, lv s3 Temps.empty (some j) v = lv s2 Temps.empty (some j) v := hd.lv (some j)
  have hlv1 : ∀ v, lv s1 Temps.empty (some i) v = lv s Temps.empty (some i) v := fun v => ha.lv i v hij
  refine ⟨hsince, fun v => ?_, fun v hv => ?_⟩
  · rcases Nat.lt_or_ge v USERPAGES with hvU | hvU
    · rw [userPage_eq hroot3 hs3 hvU, userPage_eq hroot h.rep hvU, hlv3]
      rcases Nat.lt_or_ge v (pages (s.proc i).sz) with hv | hv
      · obtain ⟨pa, hpte⟩ := hg.new v (Nat.zero_le v) hv
        have hmapped := hsp.user.mapped v hv
        have hpin := hfill.pinned v (Nat.zero_le v) hv
        rw [hlv1, show snapAll s Temps.empty (pte2pa (lv s Temps.empty (some i) v)) = _ from
          snap_some (h.rep.own_user hvU hmapped) trivial nofun] at hpin
        obtain ⟨-, -, hV, -⟩ := h.rep.flagsAt_eq hmapped
        rw [if_neg (hpte.ne_zero (has_valid _)), if_neg hmapped, hpte.flags_eq, (hs3.pins _ _ hpin).1, flagsAt, hlv1]
        rw [or_valid (f := pteFlags _) hV]
      · rw [hg.old (some j) v (by omega), hf.space.user.rest v (Nat.zero_le v) hvU, hsp.user.rest v hv hvU, if_pos rfl, if_pos rfl]
    · rw [userPage_high hvU, userPage_high hvU]
  · have hvU : v < USERPAGES := Nat.lt_of_not_le fun hle => by
      rw [userPage_high hle] at hv
      cases hv
    have hlv : pteOf s3 j v = lv s3 Temps.empty (some j) v := (ent_of_root hroot3).symm
    have hne : lv s3 Temps.empty (some j) v ≠ 0 := fun h0 => by
      rw [userPage_eq hroot3 hs3 hvU, if_pos h0] at hv
      cases hv
    have hown := hs3.own_user hvU hne
    rw [hlv]
    refine h.rep.isFree_iff.mpr ⟨hs3.stock hown, fun o ho => ?_⟩
    obtain rfl := hs3.inj (hsince.own rfl h.slots ho) hown
    rw [own_unused rfl h.slots (r := some j) rfl] at ho
    · cases ho
    · rintro ⟨k, hk, hne⟩
      exact hne (Option.some.inj hk ▸ hun)

theorem wp_childFrame {z : Nat} {n : List UInt8} {ptf : Nat} (hp : ptf % PGSIZE = 0) (hc : (s2.proc j).trapframe % PGSIZE = 0) :
    wp (do
      onProc j (·.setSz z)
      change fun t => t.setBytes (s2.proc j).trapframe (t.bytes ptf tfSize)
      store ((s2.proc j).trapframe + tfA0) 0
      onProc j (·.setName n)
      onProc j (·.setParent (some i))
      onProc j (·.setState .runnable))
      (fun _ s3 => (s3.proc j).pid = (s2.proc j).pid ∧ ∀ k < tfSize, (s3.page (s3.proc j).trapframe).get k =
        if tfA0 ≤ k ∧ k < tfA0 + 8 then 0 else (s2.page ptf).get k) (Vm.Looked L) s2 := by
  simp only [wp_bind, wp_onProc, wp_change, wp_store]
  obtain ⟨w, hw⟩ : ∃ w, w = ((s2.setProc j ((s2.proc j).setSz z)).setBytes (s2.proc j).trapframe
    ((s2.setProc j ((s2.proc j).setSz z)).bytes ptf tfSize)).setWord ((s2.proc j).trapframe + tfA0) 0 := ⟨_, rfl⟩
  have hproc : w.proc j = (s2.proc j).setSz z := by
    rw [hw]
    exact setProc_self
  rw [← hw]
  simp only [setProc_self, hproc]
  refine ⟨rfl, fun k hk => ?_⟩
  refine (congrArg (fun b : Page => b.get k) ?_).trans (child_frame (s := s2.setProc j ((s2.proc j).setSz z)) hp hc hk)
  rw [hw]
  rfl

structure ChildMem (L : Layout) (s s3 : Vm.Sys) (i j : Slot) (pid : Int) : Prop extends MemCopy L s s3 i j where
  pid : (s3.proc j).pid = pid
  frame : ∀ k < tfSize, (s3.page (s3.proc j).trapframe).get k =
    if tfA0 ≤ k ∧ k < tfA0 + 8 then 0 else (s.page (s.proc i).trapframe).get k

theorem wp_childMem (h : Inv L s Temps.empty) (hi : (s.proc i).state ≠ .unused) (hun : (s.proc j).state = .unused)
    (ha : Apart s Temps.empty s1 Temps.empty j) (hf : Fresh L s1 Temps.empty j) (hXf : snapAll s Temps.empty (s1.proc j).trapframe = none)
    (hs2 : Rep L X s2 Temps.empty)
    (hg : Grown s1 Temps.empty s2 (some j) 0 (pages (s1.proc i).sz) (flagsAt s1 Temps.empty (some i)))
    (hfill : Filled (snapAll s Temps.empty) X s2 Temps.empty (some j) 0 (pages (s1.proc i).sz)
      fun v => snapAll s Temps.empty (pte2pa (lv s1 Temps.empty (some i) v))) :
    wp (do
      onProc j (·.setSz (s1.proc i).sz)
      change fun t => t.setBytes (s1.proc j).trapframe (t.bytes (s1.proc i).trapframe tfSize)
      store ((s1.proc j).trapframe + tfA0) 0
      onProc j (·.setName (safestrcpy (s1.proc i).name 16))
      onProc j (·.setParent (some i))
      onProc j (·.setState .runnable))
      (fun _ s3 => ChildMem L s s3 i j (s1.proc j).pid) (Vm.Looked L) s2 := by
  have hij : i ≠ j := fun he => hi (he ▸ hun)
  have hp1 : s1.proc i = s.proc i := ha.proc i hij
  have hp2 : s2.proc j = s1.proc j := by rw [hg.kept.proc]
  have htf : own s2 Temps.empty (.frame j) = some (s2.proc j).trapframe := by
    simp only [own, ptr, hp2, if_neg hf.trapframe]
  have hptf : own s Temps.empty (.frame i) = some (s.proc i).trapframe := by
    simp only [own, ptr, if_neg ((h.slots i).used hi).2.1]
  rw [hp1] at hg hfill ⊢
  -- none of the pages just copied is the child's trapframe
  have hX : X (s2.proc j).trapframe = none := by
    by_contra hne
    obtain ⟨v, -, hv, he⟩ := hfill.only _ (hp2 ▸ hXf) hne
    have hmapped := hg.mapped (fun _ h0 => absurd h0 (Nat.not_lt_zero _)) v hv
    have hu := hs2.own_user (Nat.lt_of_lt_of_le hv (h.pages_le hi)) hmapped
    rw [← he] at hu
    cases hs2.inj hu htf
  have hchild := wp_child (i := i) (z := (s.proc i).sz) (f := fun t => t.bytes (s.proc i).trapframe tfSize)
    (n := safestrcpy (s.proc i).name 16) hs2 (by rw [hp2]; exact hf.trapframe) hX
  have hframe := wp_childFrame (L := L) (i := i) (z := (s.proc i).sz) (n := safestrcpy (s.proc i).name 16)
    (h.rep.stock hptf).1 (hs2.stock htf).1
  rw [← hp2]
  refine wp_mono (wp_and hchild hframe) (fun _ s3 h3 => ?_) fun _ _ he => he.1
  obtain ⟨⟨hs3, hd, _⟩, hpid, hk⟩ := h3
  refine ⟨memCopy h hi hun ha hf hg hfill hs3 hd, hpid, fun k hk' => ?_⟩
  rw [hk k hk', hs2.page_snap hfill.le hptf trivial (by rintro _ _ _ ⟨⟩)]

end

theorem copied_files {s t : Sys} {p np : Fin NPROC} {cwd : Fin NINODE} (hcwd : (s.fs.proc p).cwd = some cwd)
    (ht : t.fs = shared s.fs p np cwd) :
    t.fs.proc np = s.fs.proc p ∧ (∀ q, q ≠ np → t.fs.proc q = s.fs.proc q) ∧
    (∀ f, t.fs.ftable f = (s.fs.ftable f).setRef
      ((s.fs.ftable f).ref + (List.finRange NOFILE).countP fun fd => (s.fs.proc p).ofile fd == some f)) ∧
    ∀ e, t.fs.itable e = (s.fs.itable e).setRef ((s.fs.itable e).ref + if (s.fs.proc p).cwd = some e then 1 else 0) := by
  rw [ht]
  refine ⟨Function.update_self _ _ _, fun q hq => Function.update_of_ne hq _ _, fun f => rfl, fun e => ?_⟩
  rw [hcwd]
  by_cases he : e = cwd
  · rw [he, if_pos rfl]
    exact Function.update_self ..
  · rw [if_neg fun h => he (Option.some.inj h).symm]
    exact (Function.update_of_ne he ..).trans (congrArg (Fs.Inode.setRef _) (Int.add_zero _)).symm

section
open Vm
variable {L : Layout} {s : Sys} {p : Fin NPROC}

theorem copied {t : Sys} {np : Fin NPROC} {cwd : Fin NINODE} (h : Inv L s.mem Temps.empty)
    (hp : (s.mem.proc p).state ≠ .unused) (hun : (s.mem.proc np).state = .unused) (hcwd : (s.fs.proc p).cwd = some cwd)
    (hm : ChildMem L s.mem t.mem p np s.mem.nextpid) (hf : t.fs = shared s.fs p np cwd) : Copied s t p np := by
  obtain ⟨hproc, hother, hfile, hinode⟩ := copied_files hcwd hf
  have hptf : own s.mem Temps.empty (.frame p) = some (s.mem.proc p).trapframe := by
    simp only [own, ptr, if_neg ((h.slots p).used hp).2.1]
  exact ⟨hun, hm.pid, hm.user, hm.fresh, hm.frame, hm.since.proc p hp, fun _ => hm.since.pteOf hp h.slots,
    fun _ => hm.since.userPage h hp, hm.since.page hptf (by rintro _ _ _ ⟨⟩), hproc, hother, hfile, hinode⟩

theorem wp_fork (h : Inv L s.mem Temps.empty) (hp : (s.mem.proc p).state ≠ .unused) (hr : Ready s p) :
    wp (fork L p) (fun r t => (r = s.mem.nextpid ∧ ∃ np, Copied s t p np) ∨ r = -1 ∧ Undone s t) (fun e _ => Looked e) s := by
  obtain ⟨cwd, hcwd⟩ := Option.isSome_iff_exists.mp hr.cwd
  unfold fork
  rw [wp_bind, wp_vm]
  have hrep : Rep L (snapAll s.mem Temps.empty) s.mem Temps.empty := h.rep.snap
  refine wp_mono (wp_allocproc (fun _ => snapAll_open) hrep rfl h.slots (fun s' hs' hok hu => ?_)
    fun np s1 hun hs1 ha hf hXf hpid => ?_) (fun _ _ ht => ht) fun _ _ he => looked he
  · exact Or.inr ⟨rfl, hu.proc, hu.unused, undone_mem h hs' hok hu, rfl⟩
  have hne : p ≠ np := fun he => hp (he ▸ hun)
  have := snapAll_open (T := Temps.empty) hun
  have hp1 : s1.proc p = s.mem.proc p := ha.proc p hne
  obtain ⟨hpt, -, hsp⟩ := (((h.slots p).apart ha hne).used (by rw [hp1]; exact hp))
  simp only [wp_bind, wp_view, wp_vm]
  refine wp_mono (wp_uvmcopy hs1 (root_slot hpt) (root_slot hf.pagetable) (fun he => hne (Option.some.inj he)) hsp.user
    hf.space.user (fun s2 hs2 hc => ?_) fun s2 X hs2 hg hfill => ?_) (fun _ _ ht => ht) fun _ _ he => looked he
  · rw [if_pos (by decide), wp_bind, wp_vm]
    refine wp_mono (wp_giveBack hs2 (fun k _ => h.slots k) (ha.trans hc.apart)
      (fun _ => ⟨(s1.proc np).trapframe, ?_⟩) ⟨?_, fun v _ h2 => absurd h2 ?_⟩ fun s3 hs3 hok ha3 hun3 => ?_) (fun _ _ ht => ht)
      fun _ _ he => looked he
    · rw [hc.kept.proc, hf.sz, pages_zero]
      exact hf.space.congr (hc.lv (some np))
    · rw [hc.kept.proc]
      exact hXf
    · rw [hc.kept.proc, hf.sz, pages_zero]
      exact Nat.not_lt_zero v
    · have hu := ha3.undone hun hun3
      exact Or.inr ⟨rfl, hu.proc, hu.unused, undone_mem h hs3 hok hu, rfl⟩
  · rw [if_neg (by decide)]
    have key := wp_childMem h hp hun ha hf hXf hs2 hg hfill
    simp only [wp_bind, wp_onProc, wp_change, wp_store] at key
    simp only [wp_bind, wp_vm, wp_fs, wp_onProc, wp_change, wp_store]
    refine wp_post (wp_forkFds hne (hr.spare np hun) hr.ref) fun _ u hu => ?_
    subst hu
    refine Fs.wp_cwdOf (e := cwd) ((congrArg Fs.Proc.cwd (Function.update_of_ne hne ..)).trans hcwd) ?_
    simp only [Fs.idup, Fs.onInode, Fs.onProc, wp_change, wp_pure]
    exact Or.inl ⟨hpid, np, copied h hp hun hcwd (hpid ▸ key) (shared_eq hcwd)⟩

theorem quiet_fork : Quiet (fork L p) := by
  refine .bind (quiet_vm quiet_allocproc) fun j => ?_
  cases j with
  | none => exact .pure _
  | some j =>
    refine .bind (.view _) fun _ => .bind (.view _) fun _ => .bind (quiet_vm quiet_uvmcopy) fun _ => ?_
    refine .ite (fun _ => .bind (quiet_vm quiet_freeproc) fun _ => .pure _) fun _ => ?_
    refine .bind (quiet_vm (.change fun _ h => h)) fun _ => .bind (quiet_vm (.change fun _ h => h)) fun _ => ?_
    refine .bind (quiet_vm (.change fun _ h => h)) fun _ => .bind quiet_fs fun _ => .bind quiet_fs fun _ => ?_
    refine .bind quiet_fs fun _ => .bind quiet_fs fun _ => .bind (quiet_vm (.change fun _ h => h)) fun _ => ?_
    exact .bind (quiet_vm (.change fun _ h => h)) fun _ => .bind (quiet_vm (.change fun _ h => h)) fun _ => .pure _

end

def oneFile (mem : Vm.Sys) : Sys where
  mem := mem
  fs := { Fs.Thirty.sys with
    ftable := fun f => (Fs.Thirty.sys.ftable f).setRef 1
    proc := fun i => if i.val = 1 then ⟨fun fd => if fd.val = 0 then some 0 else none, some 0⟩ else ⟨fun _ => none, none⟩ }

theorem oneFile_ready {mem : Vm.Sys} (hused : (mem.proc ⟨1, by decide⟩).state ≠ .unused) :
    Ready (oneFile mem) ⟨1, by decide⟩ := by
  refine ⟨fun _ _ _ => le_refl 1, rfl, fun i hi fd => ?_⟩
  have hne : i.val ≠ 1 := fun he => hused ((Fin.ext he : i = ⟨1, by decide⟩) ▸ hi)
  simp only [oneFile, if_neg hne]

end Xv6.Kern
