import Mathlib.Algebra.BigOperators.Ring.Finset
import Mathlib.Data.Finset.Card
import Mathlib.Tactic.Ring
import Xv6.Log.Isolation

/-! Log space. `log_write` tests against `log.size - 1` before it looks for the block in the log, so a group that has
    logged `LOGSIZE - 1` distinct blocks cannot log again. -/

namespace Xv6.Group
open Lib

def distinct (l : List Nat) : Nat := l.toFinset.card

theorem distinct_append_of_mem {l : List Nat} {b : Nat} (h : b ∈ l) : distinct (l ++ [b]) = distinct l := by
  have : (l ++ [b]).toFinset = l.toFinset := by
    ext x
    simp only [List.mem_toFinset, List.mem_append, List.mem_singleton]
    exact ⟨fun hx => hx.elim id fun hx => hx ▸ h, Or.inl⟩
  rw [distinct, this, distinct]

theorem distinct_append_of_not_mem {l : List Nat} {b : Nat} (h : b ∉ l) :
    distinct (l ++ [b]) = distinct l + 1 := by
  have : (l ++ [b]).toFinset = insert b l.toFinset := by
    ext x
    simp only [List.mem_toFinset, List.mem_append, List.mem_singleton, Finset.mem_insert]
    tauto
  rw [distinct, this, Finset.card_insert_of_notMem (by simpa using h), distinct]

theorem distinct_le_append (l : List Nat) (b : Nat) : distinct l ≤ distinct (l ++ [b]) := by
  by_cases h : b ∈ l
  · rw [distinct_append_of_mem h]
  · rw [distinct_append_of_not_mem h]
    exact Nat.le_succ _

def Pc.reserve : Pc → Int
  | .inOp l => MAXOPBLOCKS - distinct l
  | _ => 0

@[simp] theorem Pc.reserve_inOp (l : List Nat) : (Pc.inOp l).reserve = MAXOPBLOCKS - distinct l := rfl

@[simp] theorem Pc.reserve_idle : Pc.idle.reserve = 0 := rfl

@[simp] theorem Pc.reserve_commit (ph : Phase) : (Pc.commit ph).reserve = 0 := rfl

/-- Each operation logs at most `MAXOPBLOCKS` distinct blocks. -/
def Within {P : Type} (s : Sys P) : Action P → Prop
  | .logWrite p b => ∀ l, s.pc p = .inOp l → distinct (l ++ [b]) ≤ MAXOPBLOCKS
  | _ => True

/-- `log_write` is called only while the current group has logged fewer than `LOGSIZE - 1` distinct blocks. -/
def Room {P : Type} (s : Sys P) : Action P → Prop
  | .logWrite _ _ => distinct s.hist.group < LOGSIZE - 1
  | _ => True

section
variable {P : Type} [Fintype P]

theorem Inv.n_eq {s : Sys P} (inv : Inv s) : s.log.lh.n = distinct s.hist.group := by
  have hset : s.log.lh.blocks.toFinset = s.hist.group.toFinset := by
    ext b
    simp only [List.mem_toFinset]
    exact inv.group b
  rw [← s.log.lh.length_blocks, ← List.toFinset_card_of_nodup inv.nodup, hset, distinct]

structure Reserved (s : Sys P) : Prop where
  size : s.log.size = LOGSIZE
  within : ∀ p l, s.pc p = .inOp l → distinct l ≤ MAXOPBLOCKS
  space : (s.log.lh.n : Int) + ∑ p, (s.pc p).reserve ≤ LOGSIZE

theorem Reserved.reserve_nonneg {s : Sys P} (r : Reserved s) (p : P) : 0 ≤ (s.pc p).reserve := by
  cases hp : s.pc p with
  | inOp l =>
    have := r.within p l hp
    simp only [Pc.reserve]
    omega
  | _ => exact Int.le_refl 0

theorem sum_reserve_le (s : Sys P) : ∑ p, (s.pc p).reserve ≤ (∑ p, (s.pc p).ops) * MAXOPBLOCKS := by
  rw [Finset.sum_mul]
  apply Finset.sum_le_sum
  intro p _
  cases s.pc p <;> simp [Pc.reserve, Pc.ops]

theorem sum_reserve_wakeup (pc : P → Pc) : ∑ p, (wakeup pc p).reserve = ∑ p, (pc p).reserve := by
  apply Finset.sum_congr rfl
  intro p _
  unfold wakeup
  split
  · rename_i h; simp [h, Pc.reserve]
  · rfl

theorem reserved_init {s : Sys P} (h : Init LOGSIZE s) : Reserved s := by
  obtain ⟨hsize, -, -, hn, hpc, -⟩ := h
  constructor <;> simp [hsize, hn, hpc, Pc.reserve]

theorem Reserved.congr {s t : Sys P} (r : Reserved s) (hsize : t.log.size = s.log.size)
    (hn : t.log.lh.n ≤ s.log.lh.n) (hpc : ∀ q l, t.pc q = .inOp l → s.pc q = .inOp l)
    (hsum : ∑ q, (t.pc q).reserve ≤ ∑ q, (s.pc q).reserve) : Reserved t where
  size := hsize.trans r.size
  within q l hq := r.within q l (hpc q l hq)
  space := by
    have := r.space
    omega

variable [DecidableEq P] {s t : Sys P} {p : P}

theorem Reserved.move (r : Reserved s) {v : Pc} (hp : (s.pc p).reserve = 0) (hv : v.reserve = 0)
    (hop : ∀ l, v ≠ .inOp l) : Reserved { s with pc := Function.update s.pc p v } where
  size := r.size
  within q l hq := r.within q l (update_back (hop l) hq)
  space := by
    show (s.log.lh.n : Int) + _ ≤ _
    rw [sum_update Pc.reserve, hp, hv]
    have := r.space
    omega

theorem reserved_beginOp (inv : Inv s) (r : Reserved s) (h : step s (.beginOp p) = .ok t) : Reserved t := by
  obtain ⟨hp, rfl⟩ := step_beginOp h
  have hres : (s.pc p).reserve = 0 := by rcases hp with hp | hp <;> rw [hp] <;> rfl
  have sleeps : Reserved { s with pc := Function.update s.pc p .asleep } := r.move hres rfl (by simp)
  unfold beginOp
  split
  · exact sleeps
  · split
    · exact sleeps
    · rename_i hadmit
      refine ⟨r.size, fun q l hq => ?_, ?_⟩
      · rcases update_cases hq with ⟨-, hl⟩ | ⟨-, hq⟩
        · cases hl
          exact Nat.zero_le _
        · exact r.within q l hq
      · -- The admission test counts `MAXOPBLOCKS` for every open operation, which is at least its reserve.
        show (s.log.lh.n : Int) + ∑ q, (Function.update s.pc p (.inOp []) q).reserve ≤ _
        have hle := sum_reserve_le s
        rw [← inv.outstanding] at hle
        rw [sum_update Pc.reserve, hres]
        have hnew : (Pc.inOp []).reserve = MAXOPBLOCKS := by simp [Pc.reserve, distinct]
        rw [hnew]
        have hexp : (s.log.outstanding + 1) * (MAXOPBLOCKS : Int) = s.log.outstanding * MAXOPBLOCKS + MAXOPBLOCKS := by
          ring
        rw [hexp] at hadmit
        omega

theorem reserved_logWrite {b : Nat} (inv : Inv s) (r : Reserved s) (hw : Within s (.logWrite p b))
    (h : step s (.logWrite p b) = .ok t) : Reserved t := by
  obtain ⟨l, hp, -, -, rfl⟩ := step_logWrite h
  have hbudget := hw l hp
  refine ⟨r.size, fun q l' hq => ?_, ?_⟩
  · rcases update_cases hq with ⟨-, hl⟩ | ⟨-, hq⟩
    · cases hl; exact hbudget
    · exact r.within q l' hq
  · show ((s.log.lh.log b).n : Int) + ∑ q, (Function.update s.pc p (.inOp (l ++ [b])) q).reserve ≤ _
    rw [sum_update Pc.reserve, hp, ← LogHeader.length_blocks, Pc.reserve_inOp, Pc.reserve_inOp]
    have hspace := r.space
    have hn := s.log.lh.length_blocks
    by_cases hb : b ∈ s.log.lh.blocks
    · have hle := distinct_le_append l b
      rw [LogHeader.blocks_log_of_mem hb]
      omega
    · -- A block that is new to the log is new to the operation, which pays for it.
      have hbl : b ∉ l := fun hbl => hb ((inv.group b).mpr (inv.mine p l hp hbl))
      rw [LogHeader.blocks_log_of_not_mem hb, distinct_append_of_not_mem hbl]
      simp only [List.length_append, List.length_singleton]
      omega

theorem reserved_endOp (r : Reserved s) (h : step s (.endOp p) = .ok t) : Reserved t := by
  obtain ⟨l, hp, -, -, hcase⟩ := step_endOp h
  have hnonneg := r.reserve_nonneg p
  rcases hcase with ⟨-, hpc, hlog⟩ | ⟨-, hpc, hlog⟩
  · refine r.congr (by rw [hlog]) (by rw [hlog]) (fun q l' hq => ?_) ?_
    · rw [hpc] at hq
      exact update_back (by simp) hq
    · rw [hpc, sum_update Pc.reserve, Pc.reserve_commit]
      omega
  · refine r.congr (by rw [hlog]) (by rw [hlog]) (fun q l' hq => ?_) ?_
    · rw [hpc, wakeup_inOp] at hq
      exact update_back (by simp) hq
    · rw [hpc, sum_reserve_wakeup, sum_update Pc.reserve, Pc.reserve_idle]
      omega

theorem reserved_commitStep (r : Reserved s) (h : step s (.commitStep p) = .ok t) : Reserved t := by
  obtain ⟨ph, hp, rfl⟩ := step_commitStep h
  have hres : (s.pc p).reserve = 0 := by rw [hp]; rfl
  -- Every step of the commit moves its process to a position without a reserve.
  have moves : ∀ {v : Pc}, v.reserve = 0 → ∑ q, (Function.update s.pc p v q).reserve ≤ ∑ q, (s.pc q).reserve := by
    intro v hv
    rw [sum_update Pc.reserve, hres, hv]
    omega
  cases ph with
  | enter => exact r.move hres rfl (by simp)
  | writeLog tail => exact r.move hres rfl (by simp)
  | writeHead => exact r.move hres rfl (by simp)
  | install tail =>
    simp only [commitStep]
    split
    · exact r.congr rfl (Nat.le_refl _) (fun q l hq => update_back (by simp) hq) (moves rfl)
    · exact r.move hres rfl (by simp)
  | clear => exact r.congr rfl (Nat.zero_le _) (fun q l hq => update_back (by simp) hq) (moves rfl)
  | eraseHead => exact r.move hres rfl (by simp)
  | finish =>
    refine r.congr rfl (Nat.le_refl _) (fun q l hq => update_back (by simp) (wakeup_inOp.mp hq)) ?_
    show ∑ q, (wakeup (Function.update s.pc p .idle) q).reserve ≤ _
    rw [sum_reserve_wakeup]
    exact moves rfl

theorem reserved_reach (h : Reach (Init LOGSIZE) step Within s) : Inv s ∧ Reserved s := by
  refine h.invariant (I := fun s => Inv s ∧ Reserved s) (fun _ h0 => ⟨inv_init h0, reserved_init h0⟩) fun s t a ⟨inv, r⟩ hw hs => ⟨inv_step inv hs, ?_⟩
  cases a with
  | beginOp p => exact reserved_beginOp inv r hs
  | logWrite p b => exact reserved_logWrite inv r hw hs
  | endOp p => exact reserved_endOp r hs
  | commitStep p => exact reserved_commitStep r hs

theorem logWrite_tooBig_iff (inv : Inv s) (hsize : s.log.size = LOGSIZE) {l : List Nat} {b : Nat}
    (hp : s.pc p = .inOp l) : step s (.logWrite p b) = .error (.panic .tooBig) ↔ LOGSIZE - 1 ≤ distinct s.hist.group := by
  have hn := inv.n_eq
  have hpos := inv.outstanding_pos hp
  simp only [step, hp, logWrite]
  split
  · rename_i hbig
    simp only [true_iff]
    rw [hsize] at hbig
    simp only [LOGSIZE, MAXOPBLOCKS] at hbig ⊢
    omega
  · rename_i hroom
    rw [hsize] at hroom
    have hout : ¬s.log.outstanding < 1 := by omega
    simp only [hout, ↓reduceIte, reduceCtorEq, false_iff]
    simp only [LOGSIZE, MAXOPBLOCKS] at hroom ⊢
    omega

/-- The distinct blocks of a group never exceed `LOGSIZE`. `log_write` nevertheless panics, exactly when the group has
    already logged `LOGSIZE - 1` of them. -/
theorem log_write_room :
    (∀ s : Sys P, Reach (Init LOGSIZE) step (fun s a => Within s a ∧ Room s a) s →
      ∀ a, Within s a → Room s a → step s a ≠ .error (.panic .tooBig)) ∧
    (∀ s : Sys P, Reach (Init LOGSIZE) step Within s →
      distinct s.hist.group ≤ LOGSIZE ∧
      ∀ p l b, s.pc p = .inOp l → Within s (.logWrite p b) →
        (step s (.logWrite p b) = .error (.panic .tooBig) ↔ ¬Room s (.logWrite p b))) := by
  constructor
  · intro s h a _ hroom hpanic
    obtain ⟨inv, r⟩ := reserved_reach (h.mono fun _ _ hok => hok.1)
    cases a with
    | logWrite p b =>
      cases hp : s.pc p with
      | inOp l =>
        have := (logWrite_tooBig_iff inv r.size hp).mp hpanic
        simp only [Room] at hroom
        omega
      | _ => simp [step, hp] at hpanic
    | beginOp p => simp only [step] at hpanic; split at hpanic <;> cases hpanic
    | commitStep p => simp only [step] at hpanic; split at hpanic <;> cases hpanic
    | endOp p =>
      simp only [step] at hpanic
      split at hpanic
      · simp only [endOp] at hpanic
        split at hpanic
        · cases hpanic
        · split at hpanic <;> cases hpanic
      · cases hpanic
  · intro s h
    obtain ⟨inv, r⟩ := reserved_reach h
    refine ⟨?_, fun p l b hp _ => ?_⟩
    · have hspace := r.space
      have hsum : 0 ≤ ∑ p, (s.pc p).reserve := Finset.sum_nonneg fun q _ => r.reserve_nonneg q
      rw [inv.n_eq] at hspace
      omega
    · rw [logWrite_tooBig_iff inv r.size hp]
      simp only [Room]
      omega

end

def within {P : Type} (s : Sys P) : Action P → Bool
  | .logWrite p b =>
    match s.pc p with
    | .inOp l => distinct (l ++ [b]) ≤ MAXOPBLOCKS
    | _ => true
  | _ => true

theorem within_sound {P : Type} (s : Sys P) (a : Action P) (h : within s a = true) : Within s a := by
  cases a with
  | logWrite p b =>
    intro l hp
    simpa [within, hp] using h
  | _ => trivial

def room {P : Type} (s : Sys P) : Action P → Bool
  | .logWrite _ _ => distinct s.hist.group < LOGSIZE - 1
  | _ => true

theorem room_sound {P : Type} (s : Sys P) (a : Action P) (h : room s a = true) : Room s a := by
  cases a with
  | logWrite p b => simpa [room, Room] using h
  | _ => trivial

theorem log_write_room_relog : ∃ s : Sys (Fin 3),
    Reach (Init LOGSIZE) step (fun s a => Within s a ∧ Room s a) s ∧ s.hist.group = [5, 5] ∧
      step s (.logWrite 0 7) ≠ .error (.panic .tooBig) := by
  have h : (run step (fun s a => within s a && room s a) (boot (Fin 3))
      [.beginOp 0, .logWrite 0 5, .logWrite 0 5]).any (fun t : Sys (Fin 3) =>
        within t (.logWrite 0 7) && room t (.logWrite 0 7) && t.hist.group = [5, 5]) = true := by decide +kernel
  obtain ⟨t, hrun, ht⟩ := (Option.any_eq_true _ _).mp h
  simp only [Bool.and_eq_true, decide_eq_true_eq] at ht
  have hreach : Reach (Init LOGSIZE) step (fun s a => Within s a ∧ Room s a) t :=
    Reach.of_run (fun s a hc => by
      rw [Bool.and_eq_true] at hc
      exact ⟨within_sound s a hc.1, room_sound s a hc.2⟩) _ (.init (boot_init _)) hrun
  exact ⟨t, hreach, ht.2, log_write_room.1 t hreach _ (within_sound t _ ht.1.1) (room_sound t _ ht.1.2)⟩

def fullGroup : List (Action (Fin 3)) :=
  [.beginOp 0, .beginOp 1, .beginOp 2] ++ (List.range 10).map (fun i => .logWrite 0 (100 + i)) ++
    (List.range 10).map (fun i => .logWrite 1 (110 + i)) ++ (List.range 9).map (fun i => .logWrite 2 (120 + i))

/-- The tenth block of the third operation does not fit: every operation keeps its budget, and
    `log_write` panics. -/
theorem log_write_too_big : ∃ s : Sys (Fin 3), Reach (Init LOGSIZE) step Within s ∧
    Within s (.logWrite 2 129) ∧ step s (.logWrite 2 129) = .error (.panic .tooBig) := by
  have h : (run step within (boot (Fin 3)) fullGroup).any (fun t : Sys (Fin 3) =>
      within t (.logWrite 2 129) && t.pc 2 = .inOp ((List.range 9).map (120 + ·)) &&
        LOGSIZE - 1 ≤ distinct t.hist.group) = true := by decide +kernel
  obtain ⟨t, hrun, ht⟩ := (Option.any_eq_true _ _).mp h
  simp only [Bool.and_eq_true, decide_eq_true_eq] at ht
  have hreach : Reach (Init LOGSIZE) step Within t := Reach.of_run within_sound _ (.init (boot_init _)) hrun
  obtain ⟨inv, r⟩ := reserved_reach hreach
  exact ⟨t, hreach, within_sound t _ ht.1.1, (logWrite_tooBig_iff inv r.size ht.1.2).mpr ht.2⟩

end Xv6.Group
