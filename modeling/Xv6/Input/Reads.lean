import Xv6.Fs.Faults
import Xv6.Input.Basic

/-! What `read` takes out of a pipe or the console, what it stores in user memory, and what it returns. -/

namespace Xv6.Input
open Lib

/-- A call ends other than by returning only where it sleeps for ever or the file system stops it. -/
def Calm : Stop → Sys → Prop
  | .vm _, _ => False
  | _, _ => True

section
variable {α : Type} {s t : Sys} {p addr : Nat} {ch : UInt8}

theorem wp_vm {m : Vm.VmM α} {Q : α → Sys → Prop} {E : Stop → Sys → Prop} :
    wp (vm m) Q E s ↔ wp m (fun a t => Q a (s.setMem t)) (fun e t => E (.vm e) (s.setMem t)) s.mem := by
  unfold wp vm
  cases m s.mem <;> rfl

theorem wp_fs {m : Fs.M α} {Q : α → Sys → Prop} {E : Stop → Sys → Prop} :
    wp (fs m) Q E s ↔ wp m (fun a t => Q a (s.setFs t)) (fun e t => E (.fs e) (s.setFs t)) s.fs := by
  unfold wp fs
  cases m s.fs <;> rfl

theorem wp_copyout_byte {Q : Int → Sys → Prop} (h : Vm.UserTable s.mem p)
    (hok : ∀ t, (Vm.phys s.mem p Vm.writable addr).isSome → Vm.Delivered s.mem t p addr [ch] → Q 0 (s.setMem t))
    (hfail : ∀ t, Vm.phys s.mem p Vm.writable addr = none → Vm.Delivered s.mem t p addr [] → Q (-1) (s.setMem t)) :
    wp (vm (Vm.copyout p addr [ch])) Q Calm s := by
  obtain ⟨r, t, hrun, k, hk, hmap, hd, hend⟩ := h.copied addr [ch]
  rw [wp_vm]
  refine Vm.wp_of_ok hrun ?_
  rcases hend with ⟨rfl, rfl⟩ | ⟨rfl, hlt, hno⟩
  · exact hok t (hmap 0 Nat.one_pos) hd
  · obtain rfl : k = 0 := by
      simp only [List.length_singleton] at hlt
      omega
    exact hfail t hno hd

theorem wp_await {empty : Sys → Bool} {Q : Bool → Sys → Prop} {fuel : Nat}
    (hQ : ∀ b t, t.mem = s.mem → t.fs = s.fs → t.removed = s.removed → Q b t) : wp (await empty fuel) Q Calm s := by
  induction fuel generalizing s with
  | zero => exact trivial
  | succ fuel ih =>
    rw [await]
    simp only [wp_bind, wp_view, wp_ite]
    split
    · split
      · exact hQ false s rfl rfl rfl
      · unfold sleep
        simp only [wp_bind, wp_view]
        cases s.naps with
        | nil => exact trivial
        | cons nap naps => exact ih fun b t h1 h2 h3 => hQ b t h1 h2 h3
    · exact hQ true s rfl rfl rfl

theorem lt_of_phys {flags : List Nat} (h : (Vm.phys s.mem p flags addr).isSome) : addr + 1 < 2 ^ 64 := by
  obtain ⟨a, ha⟩ := Option.isSome_iff_exists.mp h
  have := (Vm.phys_some.mp ha).1
  simp only [MAXVA] at this
  omega

/-- Of the bytes taken out, those in `got` are at `addr`; the others went nowhere. -/
structure Took (s t : Sys) (p addr n : Nat) (got lost : List UInt8) : Prop where
  removed : t.removed = s.removed ++ (got ++ lost)
  there : Vm.Delivered s.mem t.mem p addr got
  length : got.length ≤ n

def NoRoom (s : Sys) (p addr n k : Nat) : Prop := k < n ∧ Vm.phys s.mem p Vm.writable (addr + k) = none

theorem Took.none {n : Nat} : Took s s p addr n [] [] := ⟨(List.append_nil _).symm, .refl, Nat.zero_le _⟩

section
variable (s' : Sys) {n : Nat} {got lost : List UInt8} (h : Vm.UserTable s.mem p)
  (hd : Vm.Delivered s.mem s'.mem p addr [ch])
include h hd

theorem Took.cons (hr : s'.removed = s.removed ++ [ch]) (ht : Took s' t p (addr + 1) n got lost) :
    Took s t p addr (n + 1) (ch :: got) lost where
  removed := by rw [ht.removed, hr, List.append_assoc]; rfl
  there := hd.append h (hd.same h).phys ht.there
  length := Nat.succ_le_succ ht.length

theorem NoRoom.cons (hn : NoRoom s' p (addr + 1) n got.length) : NoRoom s p addr (n + 1) (ch :: got).length := by
  obtain ⟨hlt, hno⟩ := hn
  refine ⟨Nat.succ_lt_succ hlt, ?_⟩
  rw [(hd.same h).phys] at hno
  rw [← hno, List.length_cons]
  congr 1
  omega

end

theorem wp_pipeCopy {n rounds i : Nat} (h : Vm.UserTable s.mem p) (haddr : addr + i < 2 ^ 64) (hrounds : i + rounds = n) :
    wp (pipeCopy p addr n rounds i) (fun r t => ∃ got lost, r = i + got.length ∧ Took s t p (addr + i) rounds got lost ∧
      (lost = [] ∨ NoRoom s p (addr + i) rounds got.length)) Calm s := by
  induction rounds generalizing s i with
  | zero =>
    rw [pipeCopy, wp_pure]
    exact ⟨[], [], rfl, .none, .inl rfl⟩
  | succ rounds ih =>
    rw [pipeCopy, wp_ite, if_pos (by omega), wp_bind, wp_view]
    rw [wp_ite]
    split
    · exact ⟨[], [], rfl, .none, .inl rfl⟩
    · simp only [wp_bind, wp_view, wp_change, Nat.mod_eq_of_lt haddr]
      refine wp_copyout_byte (s := s.takePipe) h (fun t hsome hd => ?_) fun t hno hd => ?_
      · rw [if_neg (by decide)]
        have hnext := lt_of_phys (s := s) hsome
        refine wp_post (ih (s := s.takePipe.setMem t) (h.same (hd.same h)) (by omega) (by omega)) ?_
        rintro r u ⟨got, lost, hr, htook, hlost⟩
        refine ⟨s.pipe.next :: got, lost, by rw [hr, List.length_cons]; omega, ?_, ?_⟩
        · exact htook.cons (s.takePipe.setMem t) h hd rfl
        · exact hlost.imp_right (NoRoom.cons (s.takePipe.setMem t) h hd)
      · -- the byte is out of the pipe and nowhere
        rw [if_pos rfl, wp_pure]
        exact ⟨[], [s.pipe.next], rfl, ⟨rfl, hd, Nat.zero_le _⟩, .inr ⟨Nat.succ_pos _, hno⟩⟩

/-- How a call that reads to `addr` may end; `eof` is a byte that is not for the user. -/
def Answered (s : Sys) (p addr n : Nat) (eof : Option UInt8) (r : Int) (t : Sys) : Prop :=
  ∃ got lost, Took s t p addr n got lost ∧ (r = -1 ∨ r = got.length ∧
    (lost = [] ∨ (∃ c, eof = some c ∧ lost = [c]) ∨ NoRoom s p addr n got.length)) ∧ ∀ c ∈ got, eof ≠ some c

theorem wp_piperead {n : Int} (h : Vm.UserTable s.mem p) (haddr : addr < 2 ^ 64) :
    wp (piperead p addr n) (Answered s p addr n.toNat none) Calm s := by
  unfold piperead
  simp only [wp_bind, wp_view]
  refine wp_await fun b s' hmem _ hrem => ?_
  cases b with
  | false =>
    refine ⟨[], [], ⟨by rw [hrem]; exact (List.append_nil _).symm, ?_, Nat.zero_le _⟩, .inl rfl, by rintro _ ⟨⟩⟩
    rw [hmem]
    exact .refl
  | true =>
    simp only [if_true]
    refine wp_then (wp_pipeCopy (s := s') (by rw [hmem]; exact h) haddr (Nat.zero_add _)) ?_
    rintro r t ⟨got, lost, hr, htook, hlost⟩
    rw [wp_pure]
    refine ⟨got, lost, ⟨by rw [htook.removed, hrem], by rw [← hmem]; exact htook.there, htook.length⟩,
      .inr ⟨by rw [hr, Nat.zero_add], hlost.imp_right fun hn => .inr ?_⟩, by rintro _ - ⟨⟩⟩
    unfold NoRoom at hn ⊢
    rw [← hmem]
    exact hn

theorem takeCons_back : (s.takeCons.backCons).removed = s.removed := List.dropLast_concat

theorem wp_consoleLoop {target n : Nat} (h : Vm.UserTable s.mem p) (haddr : addr < 2 ^ 64) (hn : n ≤ target) :
    wp (consoleLoop p target n addr) (fun r t => ∃ got lost, Took s t p addr n got lost ∧
      (r = -1 ∨ r = ((target - n + got.length : Nat) : Int) ∧
        (lost = [] ∨ lost = [Console.C 'D'] ∨ NoRoom s p addr n got.length)) ∧
      ∀ c ∈ got, c ≠ Console.C 'D') Calm s := by
  induction n generalizing s addr with
  | zero =>
    rw [consoleLoop, wp_pure]
    exact ⟨[], [], .none, .inr ⟨rfl, .inl rfl⟩, nofun⟩
  | succ n ih =>
    have hret : (target : Int) - ((n : Int) + 1) = ((target - (n + 1) + 0 : Nat) : Int) := by omega
    rw [consoleLoop]
    simp only [wp_bind, wp_view]
    refine wp_await fun b s' hmem _ hrem => ?_
    have hnone : Took s s' p addr (n + 1) [] [] :=
      ⟨by rw [hrem]; exact (List.append_nil _).symm, by rw [hmem]; exact .refl, Nat.zero_le _⟩
    cases b with
    | false => exact ⟨[], [], hnone, .inl rfl, by rintro _ ⟨⟩⟩
    | true =>
      have h' : Vm.UserTable s'.mem p := by rw [hmem]; exact h
      simp only [if_true, wp_bind, wp_view, wp_change]
      rw [wp_ite]
      split
      · next hD =>
        rw [wp_bind, wp_doIf]
        refine ⟨fun _ => ?_, fun _ => ?_⟩
        · rw [wp_change, wp_pure]
          refine ⟨[], [], ⟨?_, hnone.there, Nat.zero_le _⟩, .inr ⟨hret, .inl rfl⟩, nofun⟩
          rw [takeCons_back]
          exact hnone.removed
        · rw [wp_pure]
          refine ⟨[], [Console.C 'D'], ⟨?_, hnone.there, Nat.zero_le _⟩, .inr ⟨hret, .inr (.inl rfl)⟩, nofun⟩
          rw [← hD, ← hrem]
          rfl
      · next hD =>
        rw [wp_bind]
        refine wp_copyout_byte (s := s'.takeCons) h' (fun t hsome hd => ?_) fun t hno hd => ?_
        · have hnext := lt_of_phys (s := s') hsome
          have hd' : Vm.Delivered s.mem t p addr [Console.cell s'.cons s'.cons.r] := by rw [← hmem]; exact hd
          have hr : (s'.takeCons.setMem t).removed = s.removed ++ [Console.cell s'.cons s'.cons.r] := by rw [← hrem]; rfl
          rw [if_neg (by decide), wp_ite]
          split
          · -- a whole line has arrived
            rw [wp_pure]
            refine ⟨[Console.cell s'.cons s'.cons.r], [], ⟨hr, hd', by simp⟩, .inr ⟨?_, .inl rfl⟩, ?_⟩
            · rw [List.length_singleton]
              omega
            · intro c hc
              rwa [List.mem_singleton.mp hc]
          · rw [Nat.mod_eq_of_lt hnext]
            refine wp_post (ih (s := s'.takeCons.setMem t) (h'.same (hd.same h')) hnext (by omega)) ?_
            rintro r u ⟨got, lost, htook, hres, hgot⟩
            refine ⟨Console.cell s'.cons s'.cons.r :: got, lost, htook.cons (s'.takeCons.setMem t) h hd' hr, ?_, ?_⟩
            · rcases hres with hneg | ⟨hr', hl⟩
              · exact .inl hneg
              · refine .inr ⟨?_, hl.imp_right fun hl => hl.imp_right (NoRoom.cons (s'.takeCons.setMem t) h hd')⟩
                rw [hr', List.length_cons]
                congr 1
                omega
            · intro c hc
              rcases List.mem_cons.mp hc with rfl | hc
              · exact hD
              · exact hgot c hc
        · rw [if_pos rfl, wp_pure]
          have hno' : Vm.phys s.mem p Vm.writable addr = none := by rw [← hmem]; exact hno
          refine ⟨[], [Console.cell s'.cons s'.cons.r], ⟨?_, ?_, Nat.zero_le _⟩, .inr ⟨hret, .inr (.inr ⟨Nat.succ_pos _, hno'⟩)⟩, nofun⟩
          · rw [← hrem]
            rfl
          · rw [← hmem]
            exact hd

theorem wp_consoleread {n : Int} (h : Vm.UserTable s.mem p) (haddr : addr < 2 ^ 64) :
    wp (consoleread p addr n) (Answered s p addr n.toNat (some (Console.C 'D'))) Calm s := by
  unfold consoleread
  refine wp_post (wp_consoleLoop h haddr (le_refl _)) ?_
  rintro r t ⟨got, lost, htook, hres, hgot⟩
  refine ⟨got, lost, htook, hres.imp_right fun ⟨hr, hl⟩ => ⟨?_, hl.imp_right fun hl => hl.imp_left fun hl => ⟨_, rfl, hl⟩⟩,
    fun c hc he => hgot c hc (Option.some.inj he).symm⟩
  rw [hr, Nat.sub_self, Nat.zero_add]

section Files
variable {sb : Fs.Superblock}

def files : Frame Fs.Sys := .of Fs.Sys.ftable

theorem files_logWrite (b : Nat) (x : Block) : Stable files (fun _ => True) (Fs.logWrite sb b x) :=
  .bind (.view _) fun _ => .bind (.stopIf trivial) fun _ => .bind (.view _) fun _ => .bind (.stopIf trivial) fun _ =>
    .change fun _ => rfl

theorem files_bmap (e : Fin NINODE) (bn : Nat) : Stable files (fun _ => True) (Fs.bmap sb e bn) :=
  Fs.stable_bmap files_logWrite (fun _ _ => .change fun _ => rfl) bn

theorem files_ilock (e : Fin NINODE) : Stable files (fun _ => True) (Fs.ilock sb e) :=
  .bind (.view _) fun _ => .bind (.stopIf trivial) fun _ => .bind (.stopIf trivial) fun _ =>
    .bind (.change fun _ => rfl) fun _ => .doIf <| .bind (.view _) fun _ => .bind (.change fun _ => rfl) fun _ => .stopIf trivial

theorem files_iunlock (e : Fin NINODE) : Stable files (fun _ => True) (Fs.iunlock sb e) :=
  .bind (.view _) fun _ => .bind (.stopIf trivial) fun _ => .bind (.change fun _ => rfl) fun _ => .change fun _ => rfl

theorem wp_files {m : Fs.M α} {Q : α → Sys → Prop} (hm : Stable files (fun _ => True) m)
    (hQ : ∀ a t, t.ftable = s.fs.ftable → Q a (s.setFs t)) : wp (fs m) Q Calm s := by
  rw [wp_fs]
  exact hm.wp (fun a t ht => hQ a t ht) fun _ _ _ => trivial

theorem wp_copyout_list {l : List UInt8} {Q : Int → Sys → Prop} (h : Vm.UserTable s.mem p)
    (hok : ∀ t, (∀ i < l.length, (Vm.phys s.mem p Vm.writable (addr + i)).isSome) → Vm.Delivered s.mem t p addr l →
      Q 0 (s.setMem t))
    (hfail : ∀ t k, Vm.Delivered s.mem t p addr (l.take k) → Q (-1) (s.setMem t)) :
    wp (vm (Vm.copyout p addr l)) Q Calm s := by
  obtain ⟨r, t, hrun, k, hk, hmap, hd, hend⟩ := h.copied addr l
  rw [wp_vm]
  refine Vm.wp_of_ok hrun ?_
  rcases hend with ⟨rfl, rfl⟩ | ⟨rfl, -, -⟩
  · rw [List.take_length] at hd
    exact hok t hmap hd
  · exact hfail t k hd

def Within (s : Sys) (p addr n : Nat) (r : Int) (t : Sys) : Prop :=
  (∃ l : List UInt8, l.length ≤ n ∧ Vm.Delivered s.mem t.mem p addr l) ∧ -1 ≤ r ∧ r ≤ n

theorem wp_readiLoop {e : Fin NINODE} {n rounds tot off : Nat} (h : Vm.UserTable s.mem p) (haddr : addr + tot < 2 ^ 64)
    (htot : tot ≤ n) : wp (readiLoop sb e p addr n rounds tot off) (fun r t => t.fs.ftable = s.fs.ftable ∧
      (∃ l : List UInt8, tot + l.length ≤ n ∧ Vm.Delivered s.mem t.mem p (addr + tot) l) ∧ -1 ≤ r ∧ r ≤ n) Calm s := by
  induction rounds generalizing s tot off with
  | zero =>
    rw [readiLoop, wp_pure]
    exact ⟨rfl, ⟨[], htot, .refl⟩, by omega, by omega⟩
  | succ rounds ih =>
    rw [readiLoop, wp_ite]
    split
    · next hlt =>
      rw [wp_bind]
      refine wp_files (files_bmap e _) fun b s1 hs1 => ?_
      rw [wp_ite]
      split
      · exact ⟨hs1, ⟨[], htot, .refl⟩, by omega, by omega⟩
      · rw [wp_bind]
        refine wp_files (.view _) fun x s2 hs2 => ?_
        rw [Nat.mod_eq_of_lt haddr, wp_bind]
        have hm : 0 < min (n - tot) (BSIZE - off % BSIZE) := by
          have : off % BSIZE < BSIZE := Nat.mod_lt _ (by decide)
          omega
        have hle : tot + min (n - tot) (BSIZE - off % BSIZE) ≤ n := by omega
        generalize min (n - tot) (BSIZE - off % BSIZE) = m at hm hle
        obtain ⟨l, hl⟩ : ∃ l, l = (List.range m).map fun i => x.get (off % BSIZE + i) := ⟨_, rfl⟩
        have hlen : l.length = m := by rw [hl, List.length_map, List.length_range]
        rw [← hl]
        have hfiles : s2.ftable = s.fs.ftable := hs2.trans hs1
        refine wp_copyout_list (s := (s.setFs s1).setFs s2) h (fun t hmap hd => ?_) fun t k hd => ?_
        · rw [if_neg (by decide)]
          have hlast := lt_of_phys (s := s) (hmap (m - 1) (by omega))
          refine wp_post (ih (s := ((s.setFs s1).setFs s2).setMem t) (h.same (hd.same h)) (by omega) hle) ?_
          rintro r u ⟨hu, ⟨l', hl', hd'⟩, hr⟩
          refine ⟨hu.trans hfiles, ⟨l ++ l', by rw [List.length_append]; omega, ?_⟩, hr⟩
          refine Vm.Delivered.append h hd (hd.same h).phys ?_
          rw [hlen, Nat.add_assoc]
          exact hd'
        · rw [if_pos rfl, wp_pure]
          refine ⟨hfiles, ⟨l.take k, ?_, hd⟩, by omega, by omega⟩
          have := List.length_take_le' k l
          omega
    · exact ⟨rfl, ⟨[], htot, .refl⟩, by omega, by omega⟩

theorem wp_readi {e : Fin NINODE} {off n : Nat} (h : Vm.UserTable s.mem p) (haddr : addr < 2 ^ 64) :
    wp (readi sb e p addr off n) (fun r t => t.fs.ftable = s.fs.ftable ∧
      (r > 0 → off + r.toNat < 2 ^ 32) ∧ ((off + n) % 2 ^ 32 < off → r = 0 ∧ t = s) ∧ Within s p addr n r t) Calm s := by
  have hempty : Within s p addr n 0 s := ⟨⟨[], Nat.zero_le _, .refl⟩, by decide, Int.natCast_nonneg n⟩
  unfold readi
  rw [wp_bind, wp_view]
  dsimp only
  have hsize := (s.fs.itable e).d.size.toNat_lt
  generalize (s.fs.itable e).d.size.toNat = size at hsize
  rw [wp_ite]
  split
  · exact ⟨rfl, fun hr => absurd hr (by decide), fun _ => ⟨rfl, rfl⟩, hempty⟩
  · next hok =>
    rw [not_or] at hok
    obtain ⟨hoff, hwrap⟩ := hok
    have hn : (if off + n > size then size - off else n) ≤ n ∧ off + (if off + n > size then size - off else n) ≤ size := by
      split <;> omega
    generalize (if off + n > size then size - off else n) = n' at hn
    refine wp_post (wp_readiLoop h haddr (Nat.zero_le n')) ?_
    rintro r t ⟨hfs, ⟨l, hl, hd⟩, hr1, hr2⟩
    refine ⟨hfs, fun hr => ?_, fun hw => absurd hw hwrap, ⟨l, by omega, hd⟩, hr1, by omega⟩
    omega

end Files

theorem Answered.within {n : Nat} {eof : Option UInt8} {r : Int} (h : Answered s p addr n eof r t) :
    Within s p addr n r t := by
  obtain ⟨got, lost, htook, hres, -⟩ := h
  have hlen := htook.length
  refine ⟨⟨got, hlen, htook.there⟩, ?_⟩
  rcases hres with rfl | ⟨rfl, -⟩ <;> omega

end


namespace Edge

def fs : Fs.Sys :=
  { Fs.Thirty.sys with
    itable := fun e => if e.val = 0 then ⟨1, 1, false, true, ⟨Fs.T_FILE, 0, 0, 1, 5, fun _ => 35⟩⟩ else ⟨0, 0, false, false, Fs.Dinode.zero⟩
    ftable := fun _ => ⟨.inode, 1, true, true, 0, 0, 0, 0⟩ }

def start (mem : Vm.Sys) : Sys where
  mem := mem
  fs := fs
  pipe := ⟨fun _ => 7, 0, 2, true, true⟩
  cons := ⟨fun _ => 7, 0, 2, 2⟩
  killed := false
  naps := []
  removed := []

theorem start_userTable {mem : Vm.Sys} {p : Nat} (h : Vm.UserTable mem p) : Vm.UserTable (start mem).mem p := h

def sys : Sys := start Vm.forkedSys

theorem evaluated :
    ((match piperead (Vm.forkedSys.proc ⟨1, by decide⟩).pagetable 100 2 sys with
      | .ok r t => decide (r = 2 ∧ t.removed = [7, 7])
      | .error _ _ => false) = true) ∧
    ((match piperead (Vm.forkedSys.proc ⟨1, by decide⟩).pagetable 12287 2 sys with
      | .ok r t => decide (r = 1 ∧ t.removed = [7, 7])
      | .error _ _ => false) = true) ∧
    ((match consoleread (Vm.forkedSys.proc ⟨1, by decide⟩).pagetable 12287 2 sys with
      | .ok r t => decide (r = 1 ∧ t.removed = [7, 7])
      | .error _ _ => false) = true) ∧
    ((match fileread Fs.Thirty.sb 0 (Vm.forkedSys.proc ⟨1, by decide⟩).pagetable 0 3 sys with
      | .ok r _ => decide (r = 3)
      | .error _ _ => false) = true) ∧
    ((match fileread Fs.Thirty.sb 0 (Vm.forkedSys.proc ⟨1, by decide⟩).pagetable 0 (-1) sys with
      | .ok r _ => decide (r = 5)
      | .error _ _ => false) = true) := by
  decide +kernel

end Edge

end Xv6.Input
