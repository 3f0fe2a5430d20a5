import Xv6.Fs.SharedWrite
import Xv6.Fs.Faults

/-! What a write to a file logs: `filewrite` cuts its bytes into chunks that fit `MAXOPBLOCKS` blocks. -/

namespace Xv6.Fs
open Lib

/-- The blocks that `m` logs: what it leaves in a log that was empty, inside an operation. -/
def blocksLogged {α : Type} (m : M α) (s : Sys) : List Nat :=
  match m { s with lh := [], outstanding := 1 } with
  | .ok _ t => t.lh
  | .error _ t => t.lh

theorem blocksLogged_of_wp {α : Type} {m : M α} {s : Sys} {P : List Nat → Prop}
    (h : wp m (fun _ t => P t.lh) (fun _ t => P t.lh) { s with lh := [], outstanding := 1 }) : P (blocksLogged m s) := by
  unfold wp at h
  unfold blocksLogged
  split at h <;> rename_i heq <;> rw [heq] <;> exact h

def addLog (l : List Nat) (b : Nat) : List Nat := if b ∈ l then l else l ++ [b]

section Header
variable {l : List Nat} {a b r : Nat}

theorem mem_addLog : a ∈ addLog l b ↔ a ∈ l ∨ a = b := by
  unfold addLog
  split
  · exact ⟨.inl, fun h => h.elim id fun h => h ▸ ‹_›⟩
  · rw [List.mem_append, List.mem_singleton]

theorem addLog_of_mem (h : b ∈ l) : addLog l b = l := if_pos h

theorem length_addLog_le : (addLog l b).length ≤ l.length + 1 := by
  unfold addLog
  split
  · exact Nat.le_succ _
  · rw [List.length_append, List.length_singleton]

/-- The length of the log, and what the indirect block at address `a` may still add to it. -/
def cost (l : List Nat) (a : Nat) : Nat := l.length + if a = 0 then 2 else if a ∈ l then 0 else 1

theorem length_le_cost : l.length ≤ cost l a := Nat.le_add_right ..

theorem cost_nil_le : cost [] a ≤ 2 := by
  unfold cost
  split <;> simp

theorem cost_addLog_le : cost (addLog l b) a ≤ cost l a + 1 := by
  have hlen : (addLog l b).length ≤ l.length + 1 := length_addLog_le
  unfold cost
  by_cases ha : a = 0
  · rw [if_pos ha, if_pos ha]
    omega
  · rw [if_neg ha, if_neg ha]
    by_cases hl : a ∈ l
    · rw [if_pos hl, if_pos (mem_addLog.mpr (.inl hl))]
      omega
    · rw [if_neg hl]
      split <;> omega

theorem cost_addLog_self (ha : a ≠ 0) : cost (addLog l a) a ≤ cost l a := by
  have hlen : (addLog l a).length ≤ l.length + 1 := length_addLog_le
  unfold cost
  rw [if_neg ha, if_neg ha, if_pos (mem_addLog.mpr (.inr rfl))]
  by_cases hl : a ∈ l
  · rw [addLog_of_mem hl]
    omega
  · rw [if_neg hl]
    omega

theorem cost_new (hr : r ≠ 0) : cost (addLog (addLog l b) r) r ≤ cost l 0 := by
  have hb : (addLog l b).length ≤ l.length + 1 := length_addLog_le
  have hr' : (addLog (addLog l b) r).length ≤ (addLog l b).length + 1 := length_addLog_le
  unfold cost
  rw [if_neg hr, if_pos (mem_addLog.mpr (.inr rfl)), if_pos rfl]
  omega

end Header

/-! ### What each function logs -/

section Cost
variable {sb : Superblock} {s t : Sys} {e : Fin NINODE} {K : Nat}

def Sys.cost (s : Sys) (e : Fin NINODE) : Nat := Fs.cost s.lh ((s.itable e).d.addr NDIRECT)

def Short (K : Nat) (_ : Stop) (t : Sys) : Prop := t.lh.length ≤ K

theorem Sys.length_le_cost : s.lh.length ≤ s.cost e := Fs.length_le_cost

theorem wp_logWrite_cost {b : Nat} {x : Block} {Q : Unit → Sys → Prop} (hs : s.lh.length ≤ K)
    (h : ∀ t, SameTables s t → t.disk = Function.update s.disk b x → t.lh = addLog s.lh b → Q () t) :
    wp (logWrite sb b x) Q (Short K) s := by
  unfold logWrite
  simp only [wp_bind, wp_view, wp_stopIf, wp_change]
  exact ⟨fun _ => hs, fun _ => ⟨fun _ => hs, fun _ => h _ ⟨rfl, rfl⟩ rfl rfl⟩⟩

theorem wp_balloc_cost (hK : s.lh.length + 2 ≤ K) :
    wp (balloc sb) (fun r t => SameTables s t ∧ (r = 0 ∧ t.lh = s.lh ∨ r < sb.size ∧ ∃ b, t.lh = addLog (addLog s.lh b) r)) (Short K) s := by
  unfold balloc
  rw [wp_bind]
  refine wp_forUp_any (I := fun t => t = s) rfl ?_ ?_ ?_
  · rintro t rfl
    exact Nat.le_of_add_right_le hK
  · rintro a t rfl
    unfold bread
    rw [wp_bind, wp_view]
    cases hbit : freeBit (t.disk (sb.BBLOCK a)) a sb.size BPB 0 with
    | none => rfl
    | some bi =>
      obtain ⟨hsize, -, -⟩ := freeBit_spec hbit
      simp only [wp_bind]
      refine wp_logWrite_cost (by omega) fun u hu _ hlu => ?_
      have hlen : u.lh.length ≤ t.lh.length + 1 := hlu ▸ length_addLog_le
      unfold bzero
      refine wp_logWrite_cost (by omega) fun v hv _ hlv => ?_
      exact ⟨hu.trans hv, .inr ⟨hsize, sb.BBLOCK a, by rw [hlv, hlu]; rfl⟩⟩
  · rintro t rfl
    exact ⟨⟨rfl, rfl⟩, .inl ⟨rfl, rfl⟩⟩

/-- What `bmap` costs: a free map block and the block `r` it returns, at most. -/
structure Charged (s : Sys) (e : Fin NINODE) (r : Nat) (t : Sys) : Prop where
  total : t.cost e ≤ s.cost e + 2
  data : r ≠ 0 → r ∉ t.lh → t.cost e ≤ s.cost e + 1

theorem Charged.refl {r : Nat} : Charged s e r s := ⟨Nat.le_add_right .., fun _ _ => Nat.le_add_right ..⟩

theorem charged_two {r b : Nat}
    (haddr : (t.itable e).d.addr NDIRECT = (s.itable e).d.addr NDIRECT) (hlh : t.lh = addLog (addLog s.lh b) r) : Charged s e r t := by
  refine ⟨?_, fun _ hr => absurd (hlh ▸ mem_addLog.mpr (.inr rfl)) hr⟩
  unfold Sys.cost
  rw [hlh, haddr]
  exact cost_addLog_le.trans (Nat.succ_le_succ cost_addLog_le)

theorem Charged.log {r : Nat} {u : Sys} (h : Charged s e r t) (hr : r ≠ 0) (hit : u.itable = t.itable) (hlh : u.lh = addLog t.lh r) :
    u.cost e ≤ s.cost e + 2 := by
  have htotal := h.total
  by_cases hmem : r ∈ t.lh
  · unfold Sys.cost at *
    rw [hlh, addLog_of_mem hmem, hit]
    exact htotal
  · have hdata := h.data hr hmem
    have hadd : cost (addLog t.lh r) ((t.itable e).d.addr NDIRECT) ≤ t.cost e + 1 := cost_addLog_le
    unfold Sys.cost at *
    rw [hlh, hit]
    omega

theorem writeiLoop_done {src : Source} {n rounds tot off : Nat} (h : n ≤ tot) : writeiLoop sb e src n rounds tot off = pure (tot, off) := by
  cases rounds with
  | zero => rfl
  | succ rounds => rw [writeiLoop, if_neg (by omega)]

variable (hsb : sb.size < 2 ^ 32)
include hsb

theorem wp_addrOrAlloc_cost {i : Nat} (hi : i < NDIRECT) (hK : s.cost e + 2 ≤ K) :
    wp (addrOrAlloc sb e i) (Charged s e) (Short K) s := by
  have hlen : s.lh.length ≤ s.cost e := s.length_le_cost
  unfold addrOrAlloc
  rw [wp_bind, wp_view, wp_ite]
  split
  · exact .refl
  refine wp_then (wp_balloc_cost (by omega)) fun r t hrt => ?_
  obtain ⟨⟨hit, _⟩, hr⟩ := hrt
  rw [wp_bind, wp_doIf]
  rcases hr with ⟨rfl, hlh⟩ | ⟨hlt, b, hlh⟩
  · refine ⟨fun h => absurd rfl h, fun _ => ⟨?_, fun h => absurd rfl h⟩⟩
    unfold Sys.cost
    rw [hit, hlh]
    omega
  · refine ⟨fun _ => ?_, fun _ => charged_two (by rw [hit]) hlh⟩
    unfold onInode
    rw [wp_change, wp_pure]
    refine charged_two ?_ hlh
    rw [setInode_self, hit]
    exact (addr_setAddr (by omega) (by omega) _).trans (if_neg (by omega))

theorem wp_addrOrAlloc_pointer (hK : s.cost e + 2 ≤ K) :
    wp (addrOrAlloc sb e NDIRECT) (fun r t => (r = 0 → t.cost e ≤ s.cost e + 2) ∧
      (r ≠ 0 → (t.itable e).d.addr NDIRECT = r ∧ t.cost e ≤ s.cost e)) (Short K) s := by
  have hlen : s.lh.length ≤ s.cost e := s.length_le_cost
  unfold addrOrAlloc
  rw [wp_bind, wp_view, wp_ite]
  split
  · exact ⟨fun _ => Nat.le_add_right .., fun _ => ⟨rfl, Nat.le_refl _⟩⟩
  rename_i hzero
  rw [not_not] at hzero
  refine wp_then (wp_balloc_cost (by omega)) fun r t hrt => ?_
  obtain ⟨⟨hit, _⟩, hr⟩ := hrt
  rw [wp_bind, wp_doIf]
  rcases hr with ⟨rfl, hlh⟩ | ⟨hlt, b, hlh⟩
  · refine ⟨fun h => absurd rfl h, fun _ => ⟨fun _ => ?_, fun h => absurd rfl h⟩⟩
    unfold Sys.cost
    rw [hit, hlh]
    omega
  · refine ⟨fun hne => ?_, fun h0 => ?_⟩
    · unfold onInode
      rw [wp_change, wp_pure]
      have haddr : ((t.itable e).d.setAddr NDIRECT r).addr NDIRECT = r :=
        (addr_setAddr (by omega) (by omega) _).trans (if_pos rfl)
      refine ⟨fun h => absurd h hne, fun _ => ⟨by rw [setInode_self]; exact haddr, ?_⟩⟩
      unfold Sys.cost
      rw [setInode_self, setInode_lh, hlh, hzero]
      exact haddr.symm ▸ cost_new hne
    · rw [wp_pure]
      exact ⟨fun _ => (charged_two (by rw [hit]) hlh).total, fun h => absurd h h0⟩

theorem wp_bmap_cost (bn : Nat) (hK : s.cost e + 2 ≤ K) : wp (bmap sb e bn) (Charged s e) (Short K) s := by
  have hlen : s.lh.length ≤ s.cost e := s.length_le_cost
  unfold bmap
  rw [wp_ite]
  split
  · exact wp_addrOrAlloc_cost hsb ‹_› hK
  rw [wp_ite]
  split
  swap
  · exact show s.lh.length ≤ K by omega
  refine wp_then (wp_addrOrAlloc_pointer hsb hK) fun a t hat => ?_
  obtain ⟨hfail, hptr⟩ := hat
  rw [wp_ite]
  split
  · rename_i ha
    exact ⟨hfail ha, fun h => absurd rfl h⟩
  rename_i ha
  obtain ⟨haddr, hcost⟩ := hptr ha
  have hlent : t.lh.length ≤ t.cost e := t.length_le_cost
  unfold bread
  rw [wp_bind, wp_view, wp_ite]
  split
  · exact ⟨by omega, fun _ _ => by omega⟩
  refine wp_then (wp_balloc_cost (by omega)) fun r u hru => ?_
  obtain ⟨⟨hit, _⟩, hr⟩ := hru
  have hu : Charged t e r u := by
    rcases hr with ⟨rfl, hlh⟩ | ⟨-, b, hlh⟩
    · refine ⟨?_, fun h => absurd rfl h⟩
      unfold Sys.cost
      rw [hit, hlh]
      omega
    · exact charged_two (by rw [hit]) hlh
  have htotal := hu.total
  rw [wp_bind, wp_doIf]
  refine ⟨fun hne => ?_, fun h0 => ⟨by omega, fun h => absurd h h0⟩⟩
  have hlenu : u.lh.length ≤ u.cost e := u.length_le_cost
  simp only [wp_bind, wp_view, wp_pure]
  refine wp_logWrite_cost (by omega) fun v hv _ hlv => ?_
  obtain ⟨hiv, _⟩ := hv
  have hv : v.cost e ≤ u.cost e := by
    unfold Sys.cost
    rw [hlv, hiv, hit, haddr]
    exact cost_addLog_self ha
  refine ⟨by omega, fun _ hr' => ?_⟩
  have := hu.data hne fun hmem => hr' (hlv ▸ mem_addLog.mpr (.inl hmem))
  omega

theorem wp_writeiLoop_cost {src : Source} {n rounds tot off c k : Nat} (hoff : off % BSIZE = 0) (hc : s.cost e ≤ c) (hn : n - tot ≤ k * BSIZE)
    (hK : c + 2 * k ≤ K) : wp (writeiLoop sb e src n rounds tot off) (fun _ t => t.lh.length ≤ K) (Short K) s := by
  have hlen : s.lh.length ≤ s.cost e := s.length_le_cost
  induction rounds generalizing s tot off c k with
  | zero => exact show s.lh.length ≤ K by omega
  | succ rounds ih =>
    rw [writeiLoop, wp_ite]
    split
    swap
    · exact show s.lh.length ≤ K by omega
    obtain ⟨k, rfl⟩ : ∃ k', k = k' + 1 := Nat.exists_eq_succ_of_ne_zero fun h0 => by subst h0; omega
    refine wp_then (wp_bmap_cost hsb _ (by omega)) fun a t ht => ?_
    have htotal := ht.total
    have hlent : t.lh.length ≤ t.cost e := t.length_le_cost
    rw [wp_ite]
    split
    · exact show t.lh.length ≤ K by omega
    rename_i ha
    unfold bread
    rw [wp_bind, wp_view, hoff, Nat.sub_zero, wp_ite]
    split
    · rw [wp_bind]
      refine wp_logWrite_cost (by omega) fun u hu _ hlu => ?_
      obtain ⟨hiu, _⟩ := hu
      have hcu : u.cost e ≤ s.cost e + 2 := ht.log ha hiu hlu
      have hlenu : u.lh.length ≤ u.cost e := u.length_le_cost
      rcases Nat.le_total (n - tot) BSIZE with hle | hle
      · -- the last block
        rw [Nat.min_eq_left hle, writeiLoop_done (by omega), wp_pure]
        omega
      · rw [Nat.min_eq_right hle]
        rw [Nat.succ_mul] at hn
        exact ih (c := c + 2) (k := k) (by rw [Nat.add_mod_right, hoff]) (by omega) (by omega) (by omega) hlenu
    · rw [wp_bind, wp_change, wp_pure]
      exact show t.lh.length ≤ K by omega

theorem wp_writeiLoop_chunk {src : Source} {n off : Nat} (hlh : s.lh = []) (hn : n ≤ 3 * BSIZE)
    (hfirst : off % BSIZE ≠ 0 → fileBlock s.disk (s.itable e).d (off / BSIZE) ≠ 0) :
    wp (writeiLoop sb e src n n 0 off) (fun _ t => t.lh.length ≤ 9) (Short 9) s := by
  have hcost : s.cost e ≤ 2 := by
    unfold Sys.cost
    rw [hlh]
    exact cost_nil_le
  have hlen : s.lh.length ≤ 9 := by rw [hlh]; exact Nat.zero_le _
  by_cases hoff : off % BSIZE = 0
  · exact wp_writeiLoop_cost hsb (k := 3) hoff hcost (by omega) (by omega)
  cases n with
  | zero => exact hlen
  | succ n =>
    rw [writeiLoop, if_pos (Nat.succ_pos n), wp_bind]
    refine wp_mono (wp_bmap_old (hfirst hoff)) (fun a t hat => ?_) fun _ _ h => h.elim
    obtain ⟨ha, ht⟩ := hat
    subst ht
    have hmod : off % BSIZE < BSIZE := Nat.mod_lt _ (by decide)
    have hdiv := Nat.div_add_mod off BSIZE
    rw [wp_ite, if_neg (ha ▸ hfirst hoff)]
    unfold bread
    rw [wp_bind, wp_view, wp_ite, Nat.sub_zero]
    split
    · rw [wp_bind]
      refine wp_logWrite_cost hlen fun u hu _ hlu => ?_
      obtain ⟨hiu, _⟩ := hu
      have hcu : u.cost e ≤ 3 := by
        have hadd : cost (addLog t.lh a) ((t.itable e).d.addr NDIRECT) ≤ t.cost e + 1 := cost_addLog_le
        unfold Sys.cost at *
        rw [hlu, hiu]
        omega
      have hlenu : u.lh.length ≤ u.cost e := u.length_le_cost
      rcases Nat.le_total (n + 1) (BSIZE - off % BSIZE) with hle | hle
      · rw [Nat.min_eq_left hle, writeiLoop_done (by omega), wp_pure]
        omega
      · rw [Nat.min_eq_right hle]
        have hnext : (off + (BSIZE - off % BSIZE)) % BSIZE = 0 := by
          rw [show off + (BSIZE - off % BSIZE) = BSIZE * (off / BSIZE + 1) by rw [Nat.mul_succ]; omega]
          exact Nat.mul_mod_right ..
        exact wp_writeiLoop_cost hsb (k := 3) hnext hcu (by omega) (by omega)
    · rw [wp_bind, wp_change, wp_pure]
      exact hlen

theorem wp_writei_cost {src : Source} {n off : Nat} (hlh : s.lh = []) (hn : n ≤ 3 * BSIZE)
    (hfirst : off % BSIZE ≠ 0 → off ≤ (s.itable e).d.size.toNat → fileBlock s.disk (s.itable e).d (off / BSIZE) ≠ 0) :
    wp (writei sb e src off n) (fun _ t => t.lh.length ≤ MAXOPBLOCKS) (Short MAXOPBLOCKS) s := by
  have hlen : s.lh.length ≤ MAXOPBLOCKS := by rw [hlh]; exact Nat.zero_le _
  unfold writei
  rw [wp_bind, wp_view, wp_ite]
  split
  · exact hlen
  rename_i hoff
  rw [wp_ite]
  split
  · exact hlen
  rw [wp_bind]
  refine wp_mono (wp_writeiLoop_chunk hsb hlh hn fun h => hfirst h (by omega)) (fun r t hlent => ?_)
    fun _ _ h => Nat.le_trans h (by decide)
  rw [wp_bind, wp_view, wp_bind, wp_doIf]
  -- the inode block comes last
  have hend : ∀ u : Sys, u.lh = t.lh →
      wp (iupdate sb e >>= fun _ => pure (r.1 : Int)) (fun _ t => t.lh.length ≤ MAXOPBLOCKS) (Short MAXOPBLOCKS) u := by
    intro u hlu
    unfold iupdate
    rw [wp_bind, wp_bind, wp_view, wp_bind, wp_view]
    refine wp_logWrite_cost (by rw [hlu]; exact hlent.trans (by decide)) fun v _ _ hlv => ?_
    rw [wp_pure, hlv, hlu]
    exact length_addLog_le.trans (Nat.succ_le_succ hlent)
  refine ⟨fun _ => ?_, fun _ => hend t rfl⟩
  unfold onInode
  rw [wp_change]
  exact hend _ rfl

end Cost

/-! ### The sections of `filewrite` -/

section Sections
variable {sb : Superblock} {s t : Sys} {e : Fin NINODE} {k : Fin NFILE} {src : Source}

def NoHoles (sb : Superblock) (s : Sys) (e : Fin NINODE) : Prop := ∀ bn, bn * BSIZE < (cur sb s e).size.toNat → blockAt sb s e bn ≠ 0

theorem wp_ilock_cur {K : Nat} (hK : s.lh.length ≤ K) :
    wp (ilock sb e) (fun _ t => t.lh = s.lh ∧ t.disk = s.disk ∧ (t.itable e).d = cur sb s e)
      (Short K) s := by
  unfold ilock onInode
  simp only [wp_bind, wp_view, wp_stopIf, wp_change, wp_doIf, setInode_self, setInode_disk, setInode_lh, true_and]
  refine ⟨fun _ => hK, fun _ => ⟨fun _ => hK, fun _ => ⟨fun hv => ⟨fun _ => hK, fun _ => ?_⟩, fun hv => ?_⟩⟩⟩
  · exact (if_neg (by rw [hv]; exact Bool.false_ne_true)).symm
  · exact (if_pos (Bool.not_eq_false _ ▸ hv)).symm

theorem wp_iunlock_lh {K : Nat} (hK : s.lh.length ≤ K) : wp (iunlock sb e) (fun _ t => t.lh = s.lh) (Short K) s := by
  unfold iunlock onInode onGhost
  simp only [wp_bind, wp_view, wp_stopIf, wp_change]
  exact ⟨fun _ => hK, fun _ => rfl⟩

theorem wp_writeLocked_cost (hsb : sb.size < 2 ^ 32) (hip : (s.ftable k).ip = e) (hfull : NoHoles sb s e) (hlh : s.lh = []) {i n1 : Nat}
    (hn : n1 ≤ maxWrite) : wp (writeLocked sb k src i n1) (fun _ t => t.lh.length ≤ MAXOPBLOCKS) (Short MAXOPBLOCKS) s := by
  unfold writeLocked
  rw [wp_bind, wp_view, hip]
  refine wp_then (wp_ilock_cur (by rw [hlh]; exact Nat.zero_le _)) fun _ s₁ ⟨hl₁, hd₁, hc₁⟩ => ?_
  refine wp_then (wp_writei_cost hsb (hl₁.trans hlh) hn fun hoff hle => ?_) fun r s₂ hl₂ => ?_
  · rw [hc₁] at hle ⊢
    rw [hd₁]
    refine hfull _ ?_
    have := Nat.div_add_mod (s.ftable k).off BSIZE
    rw [Nat.mul_comm]
    omega
  -- only the lock and the offset are left
  have hend : ∀ u : Sys, u.lh = s₂.lh → wp (iunlock sb e >>= fun _ => pure r) (fun _ t => t.lh.length ≤ MAXOPBLOCKS) (Short MAXOPBLOCKS) u := by
    intro u hlu
    rw [← hlu] at hl₂
    refine wp_then (wp_iunlock_lh hl₂) fun _ v hv => ?_
    rw [wp_pure, hv]
    exact hl₂
  rw [wp_bind, wp_doIf]
  refine ⟨fun _ => ?_, fun _ => hend _ rfl⟩
  unfold onFile
  rw [wp_change]
  exact hend _ rfl

/-! A whole chunk leaves no hole. -/

section
variable (sb e)

def sized : Frame Sys := .of fun s => (s.itable e).d.size

theorem sized_bmap (bn : Nat) : Stable (sized e) (fun _ => True) (bmap sb e bn) := by
  refine stable_bmap (fun b x => ?_) (fun i a => .change fun s => ?_) bn
  · unfold logWrite
    exact .bind (.view _) fun _ => .bind (.stopIf trivial) fun _ => .bind (.view _) fun _ => .bind (.stopIf trivial) fun _ =>
      .change fun _ => rfl
  · show ((s.setInode e _).itable e).d.size = _
    rw [setInode_self]
    rfl

end

theorem wp_writeiLoop_size {n rounds tot off : Nat} :
    wp (writeiLoop sb e src n rounds tot off) (fun r t => (t.itable e).d.size = (s.itable e).d.size ∧ r.2 ≤ off + (n - tot)) (fun _ _ => True) s := by
  induction rounds generalizing s tot off with
  | zero => exact ⟨rfl, Nat.le_add_right ..⟩
  | succ rounds ih =>
    rw [writeiLoop, wp_ite]
    split
    swap
    · exact ⟨rfl, Nat.le_add_right ..⟩
    rw [wp_bind]
    refine (sized_bmap sb e _).wp (fun a t (ht : (t.itable e).d.size = (s.itable e).d.size) => ?_) fun _ _ _ => trivial
    rw [wp_ite]
    split
    · exact ⟨ht, Nat.le_add_right ..⟩
    unfold bread
    rw [wp_bind, wp_view, wp_ite]
    split
    · rw [wp_bind]
      refine wp_logWrite fun u hu _ => ?_
      obtain ⟨hiu, _⟩ := hu
      refine wp_post ih fun r v hv => ⟨by rw [hv.1, hiu, ht], by have := hv.2; omega⟩
    · rw [wp_bind, wp_change, wp_pure]
      exact ⟨ht, Nat.le_add_right ..⟩

theorem wp_writei_size {n off : Nat} :
    wp (writei sb e src off n) (fun _ t => (t.itable e).d.size.toNat ≤ max (s.itable e).d.size.toNat (off + n)) (fun _ _ => True) s := by
  unfold writei
  rw [wp_bind, wp_view, wp_ite]
  split
  · exact Nat.le_max_left ..
  rw [wp_ite]
  split
  · exact Nat.le_max_left ..
  refine wp_then wp_writeiLoop_size fun r t hrt => ?_
  obtain ⟨hsize, hr⟩ := hrt
  rw [wp_bind, wp_view, wp_bind, wp_doIf]
  have hend : ∀ u : Sys, (u.itable e).d.size.toNat ≤ max (s.itable e).d.size.toNat (off + n) → wp (iupdate sb e >>= fun _ => pure (r.1 : Int))
      (fun _ t => (t.itable e).d.size.toNat ≤ max (s.itable e).d.size.toNat (off + n)) (fun _ _ => True) u := by
    intro u hsu
    unfold iupdate
    rw [wp_bind, wp_bind, wp_view, wp_bind, wp_view]
    refine wp_logWrite fun v hv _ => ?_
    obtain ⟨hiv, _⟩ := hv
    rw [wp_pure, hiv]
    exact hsu
  refine ⟨fun _ => ?_, fun _ => hend t (by rw [hsize]; exact Nat.le_max_left ..)⟩
  unfold onInode
  rw [wp_change]
  refine hend _ ?_
  rw [setInode_self]
  refine Nat.le_trans (?_ : _ ≤ r.2) (hr.trans (Nat.le_max_right ..))
  exact Nat.le_trans (Nat.le_of_eq UInt32.toNat_ofNat') (Nat.mod_le ..)

theorem wp_writeLocked_size (ho : sb.Ordered) (h : Sound sb s e) (hip : (s.ftable k).ip = e) {i n1 : Nat} :
    wp (writeLocked sb k src i n1) (fun _ t => (cur sb t e).size.toNat ≤ max (cur sb s e).size.toNat ((s.ftable k).off + n1)) (fun _ _ => True) s := by
  unfold writeLocked
  rw [wp_bind, wp_view, hip, wp_bind]
  refine wp_mono (wp_and (wp_ilock h) (wp_ilock_cur (Nat.le_refl _))) (fun _ s₁ ⟨⟨hv₁, _, hk₁⟩, _, _, hc₁⟩ => ?_) fun _ _ _ => trivial
  rw [wp_bind]
  refine wp_mono (wp_and (wp_writei ho hv₁ hk₁.sound) wp_writei_size) (fun r s₂ ⟨⟨hv₂, _⟩, hs₂⟩ => ?_) fun _ _ _ => trivial
  rw [hc₁] at hs₂
  have hend : ∀ u : Sys, u.itable = s₂.itable → wp (iunlock sb e >>= fun _ => pure r)
      (fun _ t => (cur sb t e).size.toNat ≤ max (cur sb s e).size.toNat ((s.ftable k).off + n1)) (fun _ _ => True) u := by
    intro u hu
    unfold iunlock onInode onGhost
    simp only [wp_bind, wp_view, wp_stopIf, wp_change, wp_pure, implies_true, true_and]
    intro _
    rw [cur_of_valid (by rw [setInode_self, hu]; exact hv₂), setInode_self, hu]
    exact hs₂
  rw [wp_bind, wp_doIf]
  refine ⟨fun _ => ?_, fun _ => hend _ rfl⟩
  unfold onFile
  rw [wp_change]
  exact hend _ rfl

/-- `filewrite` of `n` bytes, called in `s₀`, comes to its loop head in `s` with `i` bytes written. -/
inductive Round (sb : Superblock) (k : Fin NFILE) (src : Source) (n : Nat) (s₀ : Sys) : Nat → Sys → Prop
  | first : Round sb k src n s₀ 0 s₀
  | next {i : Nat} {s t : Sys} : Round sb k src n s₀ i s → i < n →
      exec (do beginOp; let r ← writeLocked sb k src i (min (n - i) maxWrite); endOp; pure r) s =
        .ok (((min (n - i) maxWrite : Nat) : Int), t) →
      Round sb k src n s₀ (i + min (n - i) maxWrite) t

structure AtHead (sb : Superblock) (k : Fin NFILE) (e : Fin NINODE) (s : Sys) : Prop where
  ip : (s.ftable k).ip = e
  sound : Sound sb s e
  full : NoHoles sb s e
  off : (s.ftable k).off ≤ (cur sb s e).size.toNat

theorem AtHead.congr (h : AtHead sb k e s) (hdisk : t.disk = s.disk) (htab : SameTables s t) : AtHead sb k e t := by
  obtain ⟨hit, hft⟩ := htab
  have hcur : cur sb t e = cur sb s e := by unfold cur; rw [hit, hdisk]
  refine ⟨by rw [hft]; exact h.ip, ⟨by rw [hit]; exact h.sound.inum, by rw [hcur, hdisk]; exact h.sound.owned⟩, fun bn hbn => ?_, ?_⟩
  · unfold blockAt
    rw [hcur] at hbn ⊢
    rw [hdisk]
    exact h.full bn hbn
  · rw [hft, hcur]
    exact h.off

theorem AtHead.next (ho : sb.Ordered) (h : AtHead sb k e s) {i n1 : Nat} (hn1 : 0 < n1) :
    wp (do beginOp; let r ← writeLocked sb k src i n1; endOp; pure r) (fun r t => r = (n1 : Int) → AtHead sb k e t) (fun _ _ => True) s := by
  rw [wp_bind]
  refine wp_mono wp_beginOp (fun _ s₁ ⟨hd₁, ht₁⟩ => ?_) fun _ _ _ => trivial
  have h₁ := h.congr hd₁ ht₁
  rw [wp_bind]
  refine wp_mono (wp_and (wp_writeLocked ho h₁.sound h₁.ip hn1) (wp_writeLocked_size ho h₁.sound h₁.ip)) (fun r s₂ ⟨hw, hsize⟩ => ?_)
    fun _ _ _ => trivial
  rw [wp_bind]
  refine wp_mono wp_endOp (fun _ s₃ ⟨hd₃, ht₃⟩ hr => ?_) fun _ _ _ => trivial
  obtain ⟨hip, hoff, hk, hwritten, hle⟩ := hw hr
  refine AtHead.congr (s := s₂) ⟨hip, hk.sound, fun bn hbn => ?_, by rw [hoff]; exact hle⟩ hd₃ ht₃
  by_cases hold : bn * BSIZE < (cur sb s₁ e).size.toNat
  · rw [hk.block bn (h₁.full bn hold)]
    exact h₁.full bn hold
  · -- the block starts behind the old end of the file, so that its first byte has been written
    have hoff₁ := h₁.off
    obtain ⟨hne, -⟩ := hwritten (bn * BSIZE - (s₁.ftable k).off) (Nat.zero_le _) (by omega)
    rwa [Nat.add_sub_cancel' (by omega), Nat.mul_div_cancel _ (by decide)] at hne

theorem Round.atHead {n i : Nat} {s₀ : Sys} (ho : sb.Ordered) (h₀ : AtHead sb k e s₀) (h : Round sb k src n s₀ i s) : AtHead sb k e s := by
  induction h with
  | first => exact h₀
  | next _ hi hrun ih =>
    refine wp_exec (ih.next ho (lt_min (Nat.sub_pos_of_lt hi) (by decide))) hrun rfl

theorem blocksLogged_writeLocked (hsb : sb.size < 2 ^ 32) (hfull : NoHoles sb s (s.ftable k).ip) {i n1 : Nat} (hn : n1 ≤ maxWrite) :
    (blocksLogged (writeLocked sb k src i n1) s).length ≤ MAXOPBLOCKS :=
  blocksLogged_of_wp (P := fun l => l.length ≤ MAXOPBLOCKS) (wp_writeLocked_cost (s := { s with lh := [], outstanding := 1 }) hsb rfl hfull rfl hn)

end Sections

end Xv6.Fs
