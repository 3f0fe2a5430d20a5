import Xv6.Log.Recovery

/-! A commit is atomic across power failures, those of the recoveries after it included. -/

namespace Xv6.Recovery
open Lib

private theorem fold_put_n (x : Block) (f : Nat → Nat) (k : Nat) :
    ((List.range k).foldl (fun x i => x.put (4 * (i + 1)) 4 (f i)) x).le 0 4 = x.le 0 4 := by
  induction k with
  | zero => rfl
  | succ k ih =>
    rw [List.range_succ, List.foldl_append, List.foldl_cons, List.foldl_nil,
      Bytes.le_put_of_disjoint (Or.inl (by omega)), ih]

private theorem fold_put_block (x : Block) (f : Nat → Nat) (k i : Nat) (hi : i < k) (hk : k ≤ LOGSIZE)
    (hf : ∀ i < k, f i < 2 ^ 32) :
    ((List.range k).foldl (fun x i => x.put (4 * (i + 1)) 4 (f i)) x).le (4 * (i + 1)) 4 = f i := by
  simp only [LOGSIZE, MAXOPBLOCKS] at hk
  induction k with
  | zero => omega
  | succ k ih =>
    rw [List.range_succ, List.foldl_append, List.foldl_cons, List.foldl_nil]
    by_cases hik : i = k
    · subst hik
      have := hf i (by omega)
      exact Bytes.le_put (by simp only [BSIZE]; omega) (by omega)
    · rw [Bytes.le_put_of_disjoint (by omega), ih (by omega) (by omega) fun j hj => hf j (by omega)]

theorem headN_putHead (x : Block) {lh : LogHeader} (hn : lh.n ≤ LOGSIZE) : headN (putHead x lh) = lh.n := by
  simp only [LOGSIZE, MAXOPBLOCKS] at hn
  unfold headN putHead
  rw [fold_put_n, Bytes.le_put (by simp [BSIZE]) (by omega), toInt, if_pos (by omega)]
  exact Int.toNat_natCast lh.n

theorem headBlock_putHead (x : Block) {lh : LogHeader} (hn : lh.n ≤ LOGSIZE)
    (hb : ∀ b ∈ lh.blocks, b < 2 ^ 32) {i : Nat} (hi : i < lh.n) : headBlock (putHead x lh) i = lh.block i :=
  fold_put_block _ _ _ i hi hn fun j hj => hb _ (LogHeader.mem_blocks.mpr ⟨j, hj, rfl⟩)

section
variable {m : Machine} {E : Crash → Machine → Prop}

/-- A read changes nothing that a later read, a write or a crash could tell. -/
structure Same (m t : Machine) : Prop where
  log : t.log = m.log
  left : t.left = m.left
  disk : t.disk = m.disk
  data : ∀ b, t.data b = m.data b

theorem wp_bread {b : Nat} {Q : Block → Machine → Prop} (hQ : ∀ t, Same m t → Q (m.data b) t) :
    wp (bread b) Q E m := by
  simp only [bread, wp_bind, wp_view, wp_change, wp_pure]
  refine hQ _ ⟨rfl, rfl, rfl, fun c => ?_⟩
  by_cases h : c = b
  · subst h; simp [Machine.data]
  · simp [Machine.data, h]

/-- The buffer of block `b` and the block itself hold `x`; one write fewer is left. -/
structure Stored (b : Nat) (x : Block) (m t : Machine) : Prop where
  log : t.log = m.log
  left : t.left = m.left.map (· - 1)
  disk : t.disk = Function.update m.disk b x
  data : ∀ c, t.data c = if c = b then x else m.data c

theorem wp_store {b : Nat} {x : Block} {Q : Unit → Machine → Prop}
    (hE : m.left = some 0 → ∀ t, t.disk = m.disk → E .powerFailure t)
    (hQ : m.left ≠ some 0 → ∀ t, Stored b x m t → Q () t) :
    wp (do setData b x; bwrite b) Q E m := by
  simp only [setData, bwrite, wp_bind, wp_change, wp_view]
  have hdata : ∀ {t : Machine}, t.cache = Function.update m.cache b (some x) →
      t.disk = Function.update m.disk b x → ∀ c, t.data c = if c = b then x else m.data c := by
    intro t hc hd c
    by_cases h : c = b
    · subst h; simp [Machine.data, hc]
    · simp [Machine.data, hc, hd, h]
  cases hl : m.left with
  | none => exact hQ (by simp [hl]) _ ⟨rfl, by simp [hl], by simp [Machine.data], hdata rfl (by simp [Machine.data])⟩
  | some k =>
    cases k with
    | zero => exact hE hl _ rfl
    | succ k => exact hQ (by simp [hl]) _ ⟨rfl, by simp [hl], by simp [Machine.data], hdata rfl (by simp [Machine.data])⟩

end

/-- A transaction: the log, the header, the new contents, and the disk before the commit. -/
structure Txn where
  start : Nat
  size : Nat
  lh : LogHeader
  new : Nat → Block
  old : Disk

namespace Txn

def InLog (T : Txn) (b : Nat) : Prop := T.start ≤ b ∧ b < T.start + T.size

/-- The transaction fits the log: at most `log.size - 1` and `LOGSIZE` distinct blocks outside the log, with 32-bit
    numbers. -/
structure Fits (T : Txn) : Prop where
  size : T.lh.n < T.size
  logsize : T.lh.n ≤ LOGSIZE
  nodup : T.lh.blocks.Nodup
  home : ∀ b ∈ T.lh.blocks, ¬T.InLog b
  word : ∀ b ∈ T.lh.blocks, b < 2 ^ 32

def after (T : Txn) (b : Nat) : Block := if b ∈ T.lh.blocks then T.new b else T.old b

structure Settled (T : Txn) (f : Nat → Block) (d : Disk) : Prop where
  head : headN (d T.start) = 0
  home : ∀ b, ¬T.InLog b → d b = f b

/-- The transaction is in the log, and the first `i` of its blocks, at least, are at home. -/
structure Logged (T : Txn) (i : Nat) (d : Disk) : Prop where
  headN : headN (d T.start) = T.lh.n
  headBlock : ∀ j < T.lh.n, headBlock (d T.start) j = T.lh.block j
  log : ∀ j < T.lh.n, d (T.start + j + 1) = T.new (T.lh.block j)
  home : ∀ b, ¬T.InLog b → d b = T.old b ∨ (b ∈ T.lh.blocks ∧ d b = T.new b)
  done : ∀ j < i, d (T.lh.block j) = T.new (T.lh.block j)

variable {T : Txn}

theorem block_mem {j : Nat} (hj : j < T.lh.n) : T.lh.block j ∈ T.lh.blocks := LogHeader.mem_blocks.mpr ⟨j, hj, rfl⟩

theorem Fits.block_home (F : T.Fits) {j : Nat} (hj : j < T.lh.n) : ¬T.InLog (T.lh.block j) :=
  F.home _ (block_mem hj)

theorem Fits.slot_inLog (F : T.Fits) {j : Nat} (hj : j < T.lh.n) : T.InLog (T.start + j + 1) := by
  have := F.size
  exact ⟨by omega, by omega⟩

theorem Fits.start_inLog (F : T.Fits) : T.InLog T.start := by
  have := F.size
  exact ⟨by omega, by omega⟩

theorem Fits.slot_ne_block (F : T.Fits) {i j : Nat} (hi : i < T.lh.n) (hj : j < T.lh.n) :
    T.start + i + 1 ≠ T.lh.block j := fun h => F.block_home hj (h ▸ F.slot_inLog hi)

theorem Logged.home_after {d : Disk} (L : T.Logged T.lh.n d) : ∀ b, ¬T.InLog b → d b = T.after b := by
  intro b hb
  unfold after
  split
  · rename_i hmem
    obtain ⟨j, hj, rfl⟩ := LogHeader.mem_blocks.mp hmem
    exact L.done j hj
  · rename_i hmem
    rcases L.home b hb with h | ⟨h, -⟩
    · exact h
    · exact absurd h hmem

theorem Logged.mono {d : Disk} {i : Nat} (L : T.Logged i d) : T.Logged 0 d :=
  { L with done := fun j hj => absurd hj (Nat.not_lt_zero j) }

theorem Logged.install (F : T.Fits) {d : Disk} {i : Nat} (L : T.Logged i d) (hi : i < T.lh.n) :
    T.Logged (i + 1) (Function.update d (T.lh.block i) (T.new (T.lh.block i))) := by
  have hstart : T.start ≠ T.lh.block i := fun h => F.block_home hi (h ▸ F.start_inLog)
  constructor
  · rw [Function.update_of_ne hstart]; exact L.headN
  · intro j hj
    rw [Function.update_of_ne hstart]; exact L.headBlock j hj
  · intro j hj
    rw [Function.update_of_ne (F.slot_ne_block hj hi)]; exact L.log j hj
  · intro b hb
    by_cases hbi : b = T.lh.block i
    · subst hbi
      exact Or.inr ⟨block_mem hi, Function.update_self ..⟩
    · rw [Function.update_of_ne hbi]; exact L.home b hb
  · intro j hj
    by_cases hji : T.lh.block j = T.lh.block i
    · rw [hji, Function.update_self]
    · rw [Function.update_of_ne hji]
      have : j ≠ i := fun h => hji (h ▸ rfl)
      exact L.done j (by omega)

end Txn

structure Spent (b : Option Nat) (i : Nat) (m : Machine) : Prop where
  left : m.left = b.map (· - i)
  le : ∀ k, b = some k → i ≤ k

theorem Spent.crash {b : Option Nat} {i : Nat} {m : Machine} (S : Spent b i m) (h : m.left = some 0) : b = some i := by
  rw [S.left] at h
  cases b with
  | none => cases h
  | some k =>
    have := S.le k rfl
    simp only [Option.map_some, Option.some.injEq] at h ⊢
    omega

theorem Spent.stored {b : Option Nat} {i c : Nat} {x : Block} {m t : Machine} (S : Spent b i m) (h : m.left ≠ some 0)
    (St : Stored c x m t) : Spent b (i + 1) t := by
  refine ⟨?_, fun k hk => ?_⟩
  · rw [St.left, S.left]
    cases b with
    | none => rfl
    | some k =>
      simp only [Option.map_some, Option.some.injEq]
      omega
  · have hle := S.le k hk
    have hleft := S.left
    rw [hk] at hleft
    by_cases hik : i = k
    · subst hik
      simp only [Option.map_some, Nat.sub_self] at hleft
      exact absurd hleft h
    · omega

section
variable {T : Txn} {b : Option Nat} {c : Nat} {m : Machine}

structure Uses (T : Txn) (log : Log) : Prop where
  start : log.start = T.start
  n : log.lh.n = T.lh.n
  block : ∀ j < T.lh.n, log.lh.block j = T.lh.block j

/-- `write_log` before the round `i`: the first `i` log blocks hold the new contents, and nothing else has changed. -/
structure WritingLog (T : Txn) (i : Nat) (t : Machine) : Prop where
  home : ∀ x, ¬T.InLog x → t.disk x = T.old x
  head : t.disk T.start = T.old T.start
  log : ∀ j < i, t.disk (T.start + j + 1) = T.new (T.lh.block j) ∧ t.data (T.start + j + 1) = T.new (T.lh.block j)
  data : ∀ j < T.lh.n, t.data (T.lh.block j) = T.new (T.lh.block j)

theorem wp_writeLog (F : T.Fits) (U : Uses T m.log) (W : WritingLog T 0 m) (S : Spent b c m) :
    wp writeLog (fun _ t => t.log = m.log ∧ WritingLog T T.lh.n t ∧ Spent b (c + T.lh.n) t)
      (fun _ t => (∃ i < T.lh.n, b = some (c + i)) ∧ ∃ i t', WritingLog T i t' ∧ t.disk = t'.disk) m := by
  unfold writeLog
  rw [wp_bind, wp_view, U.n]
  apply wp_loop (I := fun i t => t.log = m.log ∧ WritingLog T i t ∧ Spent b (c + i) t) ⟨rfl, W, S⟩
  rintro i hi t ⟨hlog, W, S⟩
  rw [wp_bind]
  apply wp_bread
  intro t1 S1
  rw [wp_bind]
  apply wp_bread
  intro t2 S2
  rw [U.start, U.block i hi, S1.data, W.data i hi]
  have S' : Spent b (c + i) t2 := ⟨by rw [S2.left, S1.left]; exact S.left, S.le⟩
  apply wp_store
  · intro hl t3 h3
    exact ⟨⟨i, hi, S'.crash hl⟩, i, t, W, by rw [h3, S2.disk, S1.disk]⟩
  · intro hl t3 St
    have hdisk : t3.disk = Function.update t.disk (T.start + i + 1) (T.new (T.lh.block i)) := by
      rw [St.disk, S2.disk, S1.disk]
    have hdata : ∀ x, t3.data x = if x = T.start + i + 1 then T.new (T.lh.block i) else t.data x := by
      intro x
      rw [St.data, S2.data, S1.data]
    refine ⟨by rw [St.log, S2.log, S1.log, hlog], ⟨fun x hx => ?_, ?_, fun j hj => ?_, fun j hj => ?_⟩,
      S'.stored hl St⟩
    · have : x ≠ T.start + i + 1 := fun h => hx (h ▸ F.slot_inLog hi)
      rw [hdisk, Function.update_of_ne this]
      exact W.home x hx
    · rw [hdisk, Function.update_of_ne (by omega)]
      exact W.head
    · rw [hdisk, hdata]
      by_cases hji : j = i
      · subst hji; simp
      · have hne : T.start + j + 1 ≠ T.start + i + 1 := by omega
        rw [Function.update_of_ne hne, if_neg hne]
        exact W.log j (by omega)
    · rw [hdata, if_neg (Ne.symm (F.slot_ne_block hi hj))]
      exact W.data j hj

theorem wp_installTrans (F : T.Fits) (recovering : Bool) (U : Uses T m.log) (L : T.Logged 0 m.disk)
    (hdata : ∀ j < T.lh.n, m.data (T.start + j + 1) = T.new (T.lh.block j)) (S : Spent b c m) :
    wp (installTrans recovering)
      (fun _ t => t.log = m.log ∧ T.Logged T.lh.n t.disk ∧ Spent b (c + T.lh.n) t)
      (fun _ t => (∃ i, b = some (c + i)) ∧ T.Logged 0 t.disk) m := by
  unfold installTrans
  rw [wp_bind, wp_view, U.n]
  refine wp_mono (wp_loop (I := fun i t => t.log = m.log ∧ T.Logged i t.disk ∧
    (∀ j < T.lh.n, t.data (T.start + j + 1) = T.new (T.lh.block j)) ∧ Spent b (c + i) t) ⟨rfl, L, hdata, S⟩ ?_)
    (fun _ t h => ⟨h.1, h.2.1, h.2.2.2⟩) (fun _ _ h => h)
  rintro i hi t ⟨hlog, L, hdata, S⟩
  rw [wp_bind]
  apply wp_bread
  intro t1 S1
  rw [wp_bind]
  apply wp_bread
  intro t2 S2
  rw [U.start, U.block i hi, hdata i hi]
  have S' : Spent b (c + i) t2 := ⟨by rw [S2.left, S1.left]; exact S.left, S.le⟩
  have hdisk2 : t2.disk = t.disk := S2.disk.trans S1.disk
  apply wp_store
  · intro hl t3 h3
    exact ⟨⟨i, S'.crash hl⟩, by rw [h3, hdisk2]; exact L.mono⟩
  · intro hl t3 St
    refine ⟨by rw [St.log, S2.log, S1.log, hlog], ?_, fun j hj => ?_, S'.stored hl St⟩
    · rw [St.disk, hdisk2]
      exact L.install F hi
    · rw [St.data, if_neg (F.slot_ne_block hj hi), S2.data, S1.data]
      exact hdata j hj

theorem wp_writeHead_commit (F : T.Fits) (hlh : m.log.lh = T.lh) (hstart : m.log.start = T.start)
    (W : WritingLog T T.lh.n m) (S : Spent b c m) :
    wp writeHead
      (fun _ t => t.log = m.log ∧ T.Logged 0 t.disk ∧
        (∀ j < T.lh.n, t.data (T.start + j + 1) = T.new (T.lh.block j)) ∧ Spent b (c + 1) t)
      (fun _ t => b = some c ∧ t.disk = m.disk) m := by
  unfold writeHead
  rw [wp_bind, wp_view, wp_bind, hlh, hstart]
  apply wp_bread
  intro t1 S1
  have S' : Spent b c t1 := ⟨S1.left.trans S.left, S.le⟩
  apply wp_store
  · exact fun hl t2 h2 => ⟨S'.crash hl, h2.trans S1.disk⟩
  · intro hl t2 St
    have hdisk : t2.disk = Function.update m.disk T.start (putHead (m.data T.start) T.lh) := by
      rw [St.disk, S1.disk]
    refine ⟨St.log.trans S1.log, ⟨?_, fun j hj => ?_, fun j hj => ?_, fun x hx => ?_, fun j hj => ?_⟩,
      fun j hj => ?_, S'.stored hl St⟩
    · rw [hdisk, Function.update_self]
      exact headN_putHead _ F.logsize
    · rw [hdisk, Function.update_self]
      exact headBlock_putHead _ F.logsize F.word hj
    · rw [hdisk, Function.update_of_ne (by omega)]
      exact (W.log j hj).1
    · have : x ≠ T.start := fun h => hx (h ▸ F.start_inLog)
      rw [hdisk, Function.update_of_ne this]
      exact Or.inl (W.home x hx)
    · omega
    · rw [St.data, if_neg (by omega), S1.data]
      exact (W.log j hj).2

theorem wp_writeHead_erase (F : T.Fits) {f : Nat → Block} (hn : m.log.lh.n = 0) (hstart : m.log.start = T.start)
    (hhome : ∀ x, ¬T.InLog x → m.disk x = f x) (S : Spent b c m) :
    wp writeHead (fun _ t => T.Settled f t.disk) (fun _ t => b = some c ∧ t.disk = m.disk) m := by
  unfold writeHead
  rw [wp_bind, wp_view, wp_bind, hstart]
  apply wp_bread
  intro t1 S1
  have S' : Spent b c t1 := ⟨S1.left.trans S.left, S.le⟩
  apply wp_store
  · exact fun hl t2 h2 => ⟨S'.crash hl, h2.trans S1.disk⟩
  · intro hl t2 St
    refine ⟨?_, fun x hx => ?_⟩
    · rw [St.disk, Function.update_self, headN_putHead _ (by rw [hn]; exact Nat.zero_le _), hn]
    · have : x ≠ T.start := fun h => hx (h ▸ F.start_inLog)
      rw [St.disk, Function.update_of_ne this, S1.disk]
      exact hhome x hx

end

/-! ### Commit and recovery -/

/-- The transaction that a commit from `m` writes: the logged blocks with their cached contents. -/
def Machine.txn (m : Machine) : Txn := ⟨m.log.start, m.log.size, m.log.lh, m.data, m.disk⟩

section
variable {T : Txn} {d : Disk}

theorem WritingLog.settled {i : Nat} {t : Machine} (W : WritingLog T i t) (h0 : headN (T.old T.start) = 0) :
    T.Settled T.old t.disk := ⟨by rw [W.head]; exact h0, W.home⟩

/-- `commit()` with `k` writes before the power fails, of which the first `write_head` is write `n + 1`. -/
theorem wp_commit {m : Machine} (F : m.txn.Fits) (h0 : headN (m.disk m.log.start) = 0) (k : Nat) :
    wp commit (fun _ t => m.txn.Settled m.txn.after t.disk)
      (fun _ t => (k ≤ m.log.lh.n ∧ m.txn.Settled m.txn.old t.disk) ∨ (m.log.lh.n < k ∧ m.txn.Logged 0 t.disk))
      { m with left := some k } := by
  unfold commit
  rw [wp_bind, wp_view, wp_ite]
  split
  · have U : Uses m.txn m.log := ⟨rfl, rfl, fun _ _ => rfl⟩
    have S : Spent (some k) 0 { m with left := some k } := ⟨rfl, fun _ _ => Nat.zero_le _⟩
    have W : WritingLog m.txn 0 { m with left := some k } :=
      ⟨fun _ _ => rfl, rfl, fun j hj => absurd hj (Nat.not_lt_zero j), fun _ _ => rfl⟩
    rw [wp_bind]
    refine wp_mono (wp_writeLog F U W S) (fun _ t1 h1 => ?_) (fun _ t h => ?_)
    · obtain ⟨hlog1, W1, S1⟩ := h1
      rw [wp_bind]
      refine wp_mono (wp_writeHead_commit F (by rw [hlog1]; rfl) (by rw [hlog1]; rfl) W1 S1)
        (fun _ t2 h2 => ?_) (fun _ t h => ?_)
      · obtain ⟨hlog2, L2, hdata2, S2⟩ := h2
        -- From here on the header is on the disk, so at least `n + 1` writes were done.
        have hk : m.log.lh.n < k := by
          have := S2.le k rfl
          simp only [Machine.txn] at this
          omega
        rw [wp_bind]
        refine wp_mono (wp_installTrans F false (by rw [hlog2, hlog1]; exact U) L2 hdata2 S2)
          (fun _ t3 h3 => ?_) (fun _ t h => Or.inr ⟨hk, h.2⟩)
        obtain ⟨hlog3, L3, S3⟩ := h3
        simp only [clearHead, wp_bind, wp_change]
        refine wp_mono (wp_writeHead_erase F rfl (by simp [hlog3, hlog2, hlog1, Machine.txn]) L3.home_after
          (b := some k) (c := 0 + m.txn.lh.n + 1 + m.txn.lh.n) ⟨S3.left, S3.le⟩) (fun _ _ h => h) (fun _ t h => ?_)
        exact Or.inr ⟨hk, by rw [h.2]; exact L3.mono⟩
      · have hk := Option.some.inj h.1
        refine Or.inl ⟨by simp only [Machine.txn] at hk; omega, ?_⟩
        rw [h.2]
        exact W1.settled h0
    · obtain ⟨⟨i, hi, hk⟩, j, t', W', ht⟩ := h
      have hk := Option.some.inj hk
      refine Or.inl ⟨by simp only [Machine.txn] at hi; omega, ?_⟩
      rw [ht]
      exact W'.settled h0
  · rename_i hn
    have hb : m.log.lh.blocks = [] := by simpa [LogHeader.blocks] using hn
    exact ⟨h0, fun b _ => by simp [Txn.after, Machine.txn, hb]⟩

theorem wp_readHead {m : Machine} {Q : Unit → Machine → Prop} {E : Crash → Machine → Prop}
    (hQ : ∀ t, t.disk = m.disk → t.left = m.left → (∀ b, t.data b = m.data b) → t.log.start = m.log.start →
      t.log.lh.n = headN (m.data m.log.start) →
      (∀ i < headN (m.data m.log.start), t.log.lh.block i = headBlock (m.data m.log.start) i) → Q () t) :
    wp readHead Q E m := by
  unfold readHead
  rw [wp_bind, wp_view, wp_bind]
  apply wp_bread
  intro t1 S1
  rw [wp_change]
  have hstart : t1.log.start = m.log.start := by rw [S1.log]
  exact hQ _ S1.disk S1.left S1.data hstart rfl fun i hi => if_pos hi

theorem wp_recover_logged (F : T.Fits) (L : T.Logged 0 d) (left : Option Nat) :
    wp recoverFromLog (fun _ t => T.Settled T.after t.disk) (fun _ t => left ≠ none ∧ T.Logged 0 t.disk)
      (reboot T.start T.size d left) := by
  unfold recoverFromLog
  rw [wp_bind]
  apply wp_readHead
  intro t1 hdisk hleft hdata hstart hn hblock
  have hdata : ∀ b, t1.data b = d b := hdata
  have hn : t1.log.lh.n = T.lh.n := hn.trans L.headN
  have hblock : ∀ j < T.lh.n, t1.log.lh.block j = T.lh.block j := fun j hj =>
    (hblock j (L.headN.symm ▸ hj)).trans (L.headBlock j hj)
  rw [wp_bind]
  refine wp_mono (wp_installTrans F true (b := left) (c := 0) ⟨hstart, hn, hblock⟩ (by rw [hdisk]; exact L)
    (fun j hj => (hdata _).trans (L.log j hj)) ⟨by rw [hleft]; cases left <;> simp [reboot], fun k _ => Nat.zero_le k⟩)
    (fun _ t2 h2 => ?_) (fun _ t h => ?_)
  · obtain ⟨hlog2, L2, S2⟩ := h2
    rw [wp_bind, clearHead, wp_change]
    refine wp_mono (wp_writeHead_erase F rfl (by rw [hlog2]; exact hstart) L2.home_after
      (b := left) (c := 0 + T.lh.n) ⟨S2.left, S2.le⟩) (fun _ _ h => h) (fun _ t h => ?_)
    exact ⟨by rw [h.1]; simp, by rw [h.2]; exact L2.mono⟩
  · obtain ⟨⟨i, hi⟩, hL⟩ := h
    exact ⟨by rw [hi]; simp, hL⟩

theorem wp_recover_settled (F : T.Fits) {f : Nat → Block} (hs : T.Settled f d) (left : Option Nat) :
    wp recoverFromLog (fun _ t => T.Settled f t.disk) (fun _ t => left ≠ none ∧ T.Settled f t.disk)
      (reboot T.start T.size d left) := by
  let T₀ : Txn := { T with lh := ⟨0, fun _ => 0⟩, old := f }
  have F₀ : T₀.Fits :=
    ⟨Nat.lt_of_le_of_lt (Nat.zero_le _) F.size, Nat.zero_le _, List.nodup_nil, (fun b hb => by cases hb),
      (fun b hb => by cases hb)⟩
  have L₀ : T₀.Logged 0 d :=
    ⟨hs.head, fun j hj => absurd hj (Nat.not_lt_zero j), fun j hj => absurd hj (Nat.not_lt_zero j),
      fun b hb => Or.inl (hs.home b hb), fun j hj => absurd hj (Nat.not_lt_zero j)⟩
  refine wp_mono (wp_recover_logged F₀ L₀ left) (fun _ t h => ⟨h.head, h.home⟩)
    (fun _ t h => ⟨h.1, h.2.headN, fun b hb => ?_⟩)
  rcases h.2.home b hb with h' | ⟨h', -⟩
  · exact h'
  · cases h'

theorem diskAfter_of_wp {c : DiskM Unit} {m : Machine} {R : Disk → Prop}
    (h : wp c (fun _ t => R t.disk) (fun _ t => R t.disk) m) : R (diskAfter c m) := by
  unfold wp at h
  unfold diskAfter
  split at h <;> simp_all

theorem crashes_logged (F : T.Fits) (ks : List Nat) (h : T.Logged 0 d ∨ T.Settled T.after d) :
    T.Logged 0 (crashes T.start T.size d ks) ∨ T.Settled T.after (crashes T.start T.size d ks) := by
  induction ks generalizing d with
  | nil => exact h
  | cons k ks ih =>
    apply ih
    apply diskAfter_of_wp (R := fun d => T.Logged 0 d ∨ T.Settled T.after d)
    rcases h with h | h
    · exact wp_mono (wp_recover_logged F h _) (fun _ _ h => Or.inr h) (fun _ _ h => Or.inl h.2)
    · exact wp_mono (wp_recover_settled F h _) (fun _ _ h => Or.inr h) (fun _ _ h => Or.inr h.2)

theorem crashes_settled (F : T.Fits) {f : Nat → Block} (ks : List Nat) (h : T.Settled f d) :
    T.Settled f (crashes T.start T.size d ks) := by
  induction ks generalizing d with
  | nil => exact h
  | cons k ks ih =>
    exact ih (diskAfter_of_wp (wp_mono (wp_recover_settled F h _) (fun _ _ h => h) fun _ _ h => h.2))

theorem recover_ends {R : Disk → Prop}
    (h : wp recoverFromLog (fun _ t => R t.disk) (fun _ t => (none : Option Nat) ≠ none ∧ R t.disk)
      (reboot T.start T.size d none)) :
    ∃ t, recoverFromLog (reboot T.start T.size d none) = .ok () t ∧ R t.disk := by
  unfold wp at h
  split at h
  · rename_i t ht
    exact ⟨t, ht, h⟩
  · exact absurd rfl h.1

theorem recover_after (F : T.Fits) (h : T.Logged 0 d ∨ T.Settled T.after d) :
    ∃ t, recoverFromLog (reboot T.start T.size d none) = .ok () t ∧ T.Settled T.after t.disk := by
  apply recover_ends
  rcases h with h | h
  · exact wp_mono (wp_recover_logged F h none) (fun _ _ h => h) (fun _ _ h => absurd rfl h.1)
  · exact wp_recover_settled F h none

/-- However many block writes of a commit reach the disk, and however often recovery is interrupted, the recovery that
    runs to its end leaves nothing of the transaction or all of it; the latter if the first `write_head` was done. -/
theorem crash_atomic (m : Machine) (F : m.txn.Fits) (h0 : headN (m.disk m.log.start) = 0) (k : Nat) (ks : List Nat) :
    ∃ t, recoverFromLog (reboot m.log.start m.log.size (crashes m.log.start m.log.size
        (diskAfter commit { m with left := some k }) ks) none) = .ok () t ∧
      headN (t.disk m.log.start) = 0 ∧
      ((∀ b, ¬m.txn.InLog b → t.disk b = m.disk b) ∨ (∀ b, ¬m.txn.InLog b → t.disk b = m.txn.after b)) ∧
      (m.log.lh.n < k → ∀ b, ¬m.txn.InLog b → t.disk b = m.txn.after b) ∧
      (∀ b, ¬m.txn.InLog b → b ∉ m.log.lh.blocks → t.disk b = m.disk b) := by
  have same : ∀ b, b ∉ m.log.lh.blocks → m.txn.after b = m.disk b := fun b hb => if_neg hb
  -- After the commit: nothing of it, if the header was not written, else all of it, at home or in the log.
  have hcommit : (k ≤ m.log.lh.n ∧ m.txn.Settled m.disk (diskAfter commit { m with left := some k })) ∨
      (m.txn.Logged 0 (diskAfter commit { m with left := some k }) ∨
        m.txn.Settled m.txn.after (diskAfter commit { m with left := some k })) := by
    apply diskAfter_of_wp (R := fun d => (k ≤ m.log.lh.n ∧ m.txn.Settled m.disk d) ∨
      (m.txn.Logged 0 d ∨ m.txn.Settled m.txn.after d))
    refine wp_mono (wp_commit F h0 k) (fun _ _ h => Or.inr (Or.inr h)) (fun _ _ h => ?_)
    exact h.imp id fun h => Or.inl h.2
  rcases hcommit with ⟨hk, hold⟩ | hnew
  · obtain ⟨t, ht, hs⟩ := recover_ends (wp_recover_settled F (crashes_settled F ks hold) none)
    exact ⟨t, ht, hs.head, Or.inl hs.home, fun h => by omega, fun b hb _ => hs.home b hb⟩
  · obtain ⟨t, ht, hs⟩ := recover_after F (crashes_logged F ks hnew)
    exact ⟨t, ht, hs.head, Or.inr hs.home, fun _ => hs.home, fun b hb hn => (hs.home b hb).trans (same b hn)⟩

end

def oneBlock : Machine where
  disk _ := Bytes.zero
  cache b := if b = 40 then some fun _ => 7 else none
  log := { start := 2, size := 30, outstanding := 0, committing := true, lh := ⟨1, fun _ => 40⟩ }
  left := none

theorem crash_atomic_oneBlock : ∃ t, recoverFromLog (reboot 2 30 (crashes 2 30
    (diskAfter commit { oneBlock with left := some 2 }) [1]) none) = .ok () t ∧ t.disk 40 = fun _ => 7 := by
  have F : oneBlock.txn.Fits := by
    refine ⟨by decide, by decide, by decide, fun b hb => ?_, fun b hb => ?_⟩
    · rw [show b = 40 from List.mem_singleton.mp hb]
      simp [Txn.InLog, Machine.txn, oneBlock]
    · rw [show b = 40 from List.mem_singleton.mp hb]
      decide
  have h0 : headN (oneBlock.disk oneBlock.log.start) = 0 := by simp [headN, toInt, oneBlock]
  obtain ⟨t, ht, -, -, hnew, -⟩ := crash_atomic oneBlock F h0 2 [1]
  refine ⟨t, ht, ?_⟩
  rw [hnew (by decide) 40 (by simp [Txn.InLog, Machine.txn, oneBlock])]
  rfl

end Xv6.Recovery
