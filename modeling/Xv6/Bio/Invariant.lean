import Xv6.Bio.Cache

/-! A block whose contents on the disk are out of date has a buffer that is pinned by the log, or in the hands of the
    process that modified it. -/

namespace Xv6.Bio
open Lib

section
variable {P : Type}

/-- Block `n` is logged, and the running commit, if there is one, has not installed it. -/
def Pinned (g : Group.Sys P) (n : Nat) : Prop := n ∈ g.log.lh.blocks ∧ n ∉ g.hist.written

instance (g : Group.Sys P) (n : Nat) : Decidable (Pinned g n) := inferInstanceAs (Decidable (_ ∧ _))

def Buf.pins (b : Buf P) (g : Group.Sys P) : Int := if b.dev = ROOTDEV ∧ Pinned g b.blockno then 1 else 0

def Dirty (s : Sys P) (i : Fin NBUF) : Prop := (∃ p, (s.buf i).use p = .dirty) ∨ s.sub = .filled i

/-- The references, the lock and the users of one buffer. -/
structure BufInv [Fintype P] (g : Group.Sys P) (b : Buf P) : Prop where
  refcnt : b.refcnt = (∑ p, (b.use p).refs) + b.pins g
  keyed : ∀ p, b.use p ≠ .none → b.dev = ROOTDEV
  root : b.valid = true → b.dev = ROOTDEV
  lock : ∀ p, (b.use p).holds = true → b.lock = some p
  valid : ∀ p, b.use p = .ready ∨ b.use p = .dirty → b.valid = true
  dirty : ∀ p, b.use p = .dirty → (∃ l, g.pc p = .inOp l) ∧ ¬InLog g.log b.blockno

structure Content (s : Sys P) : Prop where
  unique : ∀ i j n, Key s i n → Key s j n → i = j
  data : ∀ i, (s.buf i).dev = ROOTDEV → (s.buf i).valid = true → (s.buf i).data = s.store (s.buf i).blockno
  disk : ∀ n, s.disk n = s.store n ∨ Pinned s.grp n ∨ ∃ i, Key s i n ∧ Dirty s i
  pinned : ∀ n, Pinned s.grp n → ∃ i, Key s i n ∧ (s.buf i).valid = true

/-- How many log blocks a commit at `ph` has filled; `busy` tells that it is in the middle of a write. -/
def Phase.copied (n : Nat) (busy : Bool) : Group.Phase → Nat
  | .writeLog tail => if busy then tail + 1 else tail
  | .writeHead | .install _ => n
  | _ => 0

def Sub.busy : Sub → Bool
  | .idle => false
  | _ => true

def Sub.writes (sub : Sub) (i : Fin NBUF) : Prop := sub = .filled i ∨ sub = .flushed i

structure Writing (s : Sys P) : Prop where
  home : ∀ n ∈ s.grp.log.lh.blocks, ¬InLog s.grp.log n
  fits : s.grp.log.lh.n = 0 ∨ s.grp.log.lh.n < s.grp.log.size
  sub : ∀ i, s.sub.writes i → ∃ p ph, s.grp.pc p = .commit ph ∧ (s.buf i).use p = .ready ∧
    target s.grp.log ph = some (s.buf i).blockno
  flushed : ∀ i, s.sub = .flushed i → s.disk (s.buf i).blockno = s.store (s.buf i).blockno
  copied : ∀ p ph, s.grp.pc p = .commit ph → ∀ j < s.grp.log.lh.n, j < Phase.copied s.grp.log.lh.n s.sub.busy ph →
    s.store (s.grp.log.start + j + 1) = s.store (s.grp.log.lh.block j)

structure Inv [Fintype P] (s : Sys P) : Prop where
  grp : Group.Inv s.grp
  lru : ∀ i, i ∈ s.lru
  buf : ∀ i, BufInv s.grp (s.buf i)
  content : Content s
  writing : Writing s

theorem Use.refs_nonneg (u : Use) : 0 ≤ u.refs := by cases u <;> simp [Use.refs]

theorem Use.refs_of_ne {u : Use} (h : u ≠ .none) : u.refs = 1 := by cases u <;> simp_all [Use.refs]

theorem Buf.pins_nonneg (b : Buf P) (g : Group.Sys P) : 0 ≤ b.pins g := by
  unfold Buf.pins
  split <;> omega

variable [Fintype P] {s t : Sys P}

theorem inv_init {size : Nat} (h : Init size s) : Inv s where
  grp := Group.inv_init h.grp
  lru := h.lru
  buf i := by
    have hdev : ¬((s.buf i).dev = ROOTDEV ∧ Pinned s.grp (s.buf i).blockno) := by simp [h.dev, ROOTDEV]
    constructor <;> simp [h.use, h.valid, h.refcnt, Use.refs, Use.holds, Buf.pins, hdev]
  content := by
    have hkey : ∀ i n, ¬Key s i n := fun i n hk => by
      have := hk.1
      simp [h.dev, ROOTDEV] at this
    have hpin : ∀ n, ¬Pinned s.grp n := fun n hn => by
      have := hn.1
      simp [LogHeader.blocks, h.grp.2.2.2.1] at this
    exact {
      unique := fun i _ n hi _ => absurd hi (hkey i n)
      data := fun i hd => by simp [h.dev, ROOTDEV] at hd
      disk := fun n => Or.inl (by rw [h.store])
      pinned := fun n hn => absurd hn (hpin n) }
  writing := by
    obtain ⟨-, -, -, hn, hpc, -⟩ := h.grp
    constructor <;> simp [LogHeader.blocks, hn, hpc, h.sub, Sub.writes]

theorem BufInv.unused {g : Group.Sys P} {b : Buf P} (h : BufInv g b) (h0 : b.refcnt = 0) :
    (∀ p, b.use p = .none) ∧ ¬(b.dev = ROOTDEV ∧ Pinned g b.blockno) := by
  have href := h.refcnt
  have hpins := b.pins_nonneg g
  have hsum : 0 ≤ ∑ p, (b.use p).refs := Finset.sum_nonneg fun p _ => (b.use p).refs_nonneg
  refine ⟨fun p => ?_, fun hp => ?_⟩
  · by_contra hu
    have hle := le_sum_of_nonneg (fun q => (b.use q).refs_nonneg) p
    rw [Use.refs_of_ne hu] at hle
    omega
  · simp only [Buf.pins, hp, and_self, ↓reduceIte] at href
    omega

theorem BufInv.holder {g : Group.Sys P} {b : Buf P} (h : BufInv g b) {p q : P} (hp : (b.use p).holds = true)
    (hq : (b.use q).holds = true) : q = p := by
  have := (h.lock q hq).symm.trans (h.lock p hp)
  simpa using this

theorem Inv.valid_of_dirty (inv : Inv s) {i : Fin NBUF} (h : Dirty s i) : (s.buf i).valid = true := by
  rcases h with ⟨p, hp⟩ | hs
  · exact (inv.buf i).valid p (Or.inr hp)
  · obtain ⟨p, -, -, hp, -⟩ := inv.writing.sub i (Or.inl hs)
    exact (inv.buf i).valid p (Or.inl hp)

theorem Inv.disk_of_uncached (inv : Inv s) {n : Nat} (h : ∀ i, Key s i n → (s.buf i).valid = false) :
    s.disk n = s.store n := by
  rcases inv.content.disk n with hd | hp | ⟨i, hk, hd⟩
  · exact hd
  · obtain ⟨i, hk, hv⟩ := inv.content.pinned n hp
    simp [h i hk] at hv
  · have := inv.valid_of_dirty hd
    simp [h i hk] at this

theorem Inv.not_dirty_of_commit (inv : Inv s) {p : P} {ph : Group.Phase} (hp : s.grp.pc p = .commit ph)
    (i : Fin NBUF) (q : P) : (s.buf i).use q ≠ .dirty := by
  intro hq
  obtain ⟨⟨l, hl⟩, -⟩ := (inv.buf i).dirty q hq
  have h1 := inv.grp.open_quiet q l hl
  have h2 := inv.grp.commit_busy p ph hp
  rw [h1] at h2
  cases h2

theorem Inv.not_commit_of_op (inv : Inv s) {p q : P} {l : List Nat} {ph : Group.Phase} (hp : s.grp.pc p = .inOp l) :
    s.grp.pc q ≠ .commit ph := by
  intro hq
  have h1 := inv.grp.open_quiet p l hp
  have h2 := inv.grp.commit_busy q ph hq
  rw [h1] at h2
  cases h2

/-! ### Steps that leave the blocks as they are -/

structure Same (s t : Sys P) : Prop where
  dev : ∀ i, (t.buf i).dev = (s.buf i).dev
  blockno : ∀ i, (t.buf i).blockno = (s.buf i).blockno
  valid : ∀ i, (t.buf i).valid = (s.buf i).valid
  data : ∀ i, (t.buf i).data = (s.buf i).data
  disk : t.disk = s.disk
  store : t.store = s.store

omit [Fintype P] in
theorem Same.key (h : Same s t) {i : Fin NBUF} {n : Nat} : Key t i n ↔ Key s i n := by
  unfold Key
  rw [h.dev, h.blockno]

omit [Fintype P] in
theorem Same.set {i : Fin NBUF} {b : Buf P} (hdev : b.dev = (s.buf i).dev) (hno : b.blockno = (s.buf i).blockno)
    (hvalid : b.valid = (s.buf i).valid) (hdata : b.data = (s.buf i).data) : Same s (s.set i b) := by
  have cell : ∀ {α : Type} (f : Buf P → α), f b = f (s.buf i) → ∀ j, f ((s.set i b).buf j) = f (s.buf j) :=
    fun f hf => forall_set (Q := fun j c => f c = f (s.buf j)) hf fun _ _ => rfl
  exact ⟨cell _ hdev, cell _ hno, cell _ hvalid, cell _ hdata, rfl, rfl⟩

omit [Fintype P] in
theorem Content.same (h : Content s) (hst : Same s t) (hpin : ∀ n, Pinned t.grp n → ∃ i, Key s i n ∧ (s.buf i).valid = true)
    (hout : ∀ n, Pinned s.grp n ∨ (∃ i, Key s i n ∧ Dirty s i) →
      s.disk n = s.store n ∨ Pinned t.grp n ∨ ∃ i, Key s i n ∧ Dirty t i) : Content t where
  unique i j n hi hj := h.unique i j n (hst.key.mp hi) (hst.key.mp hj)
  data i hd hv := by
    rw [hst.dev] at hd
    rw [hst.valid] at hv
    rw [hst.data, hst.store, hst.blockno]
    exact h.data i hd hv
  disk n := by
    have hkey : (∃ i, Key t i n ∧ Dirty t i) ↔ ∃ i, Key s i n ∧ Dirty t i := by simp only [hst.key]
    rw [hst.disk, hst.store, hkey]
    rcases h.disk n with hd | hd
    · exact Or.inl hd
    · exact hout n hd
  pinned n hn := by
    obtain ⟨i, hk, hv⟩ := hpin n hn
    exact ⟨i, hst.key.mpr hk, by rw [hst.valid]; exact hv⟩

omit [Fintype P] in
theorem Writing.same (h : Writing s) (hno : ∀ i, (t.buf i).blockno = (s.buf i).blockno) (hdisk : t.disk = s.disk)
    (hstore : t.store = s.store) (hgrp : t.grp = s.grp) (hsub : t.sub = s.sub)
    (huse : ∀ i p, s.sub.writes i → (s.buf i).use p = .ready → (t.buf i).use p = .ready) : Writing t where
  home := by rw [hgrp]; exact h.home
  fits := by rw [hgrp]; exact h.fits
  sub i hi := by
    rw [hsub] at hi
    obtain ⟨p, ph, hp, hr, ht⟩ := h.sub i hi
    exact ⟨p, ph, by rw [hgrp]; exact hp, huse i p hi hr, by rw [hgrp, hno]; exact ht⟩
  flushed i hi := by
    rw [hsub] at hi
    rw [hdisk, hstore, hno]
    exact h.flushed i hi
  copied := by rw [hgrp, hsub, hstore]; exact h.copied

theorem Inv.set (inv : Inv s) {i : Fin NBUF} {b : Buf P} {lru : List (Fin NBUF)} (hlru : ∀ j, j ∈ lru)
    (hb : BufInv s.grp b) (hdev : b.dev = (s.buf i).dev) (hno : b.blockno = (s.buf i).blockno)
    (hvalid : b.valid = (s.buf i).valid) (hdata : b.data = (s.buf i).data)
    (hdirty : ∀ p, (s.buf i).use p = .dirty → b.use p = .dirty)
    (hready : ∀ p, s.sub.writes i → (s.buf i).use p = .ready → b.use p = .ready) :
    Inv { s.set i b with lru := lru } := by
  have hst : Same s { s.set i b with lru := lru } := by
    obtain ⟨h1, h2, h3, h4, h5, h6⟩ := Same.set (s := s) hdev hno hvalid hdata
    exact ⟨h1, h2, h3, h4, h5, h6⟩
  have huse : ∀ {u : Use} {j : Fin NBUF} {p : P}, (s.buf j).use p = u →
      (j = i → b.use p = u) → ((s.set i b).buf j).use p = u := by
    intro u j p hj hi
    by_cases hji : j = i
    · subst hji; rw [set_buf_self]; exact hi rfl
    · rw [set_buf_ne s b hji]; exact hj
  exact {
    grp := inv.grp
    lru := hlru
    buf := forall_set hb fun j _ => inv.buf j
    content := inv.content.same hst inv.content.pinned fun n hn => by
      rcases hn with hn | ⟨j, hk, hd⟩
      · exact Or.inr (Or.inl hn)
      · refine Or.inr (Or.inr ⟨j, hk, ?_⟩)
        rcases hd with ⟨p, hp⟩ | hs
        · exact Or.inl ⟨p, huse hp fun hj => hdirty p (hj ▸ hp)⟩
        · exact Or.inr hs
    writing := inv.writing.same hst.blockno rfl rfl rfl rfl fun j p hw hp =>
      huse hp fun hj => hready p (hj ▸ hw) (hj ▸ hp) }

theorem BufInv.regroup {g g' : Group.Sys P} {b b' : Buf P} (h : BufInv g b) (huse : b'.use = b.use)
    (hdev : b'.dev = b.dev) (hlock : b'.lock = b.lock) (hvalid : b'.valid = b.valid)
    (href : b'.refcnt - b'.pins g' = b.refcnt - b.pins g)
    (hdirty : ∀ q, b.use q = .dirty → (∃ l, g'.pc q = .inOp l) ∧ ¬InLog g'.log b'.blockno) : BufInv g' b' where
  refcnt := by
    have := h.refcnt
    rw [huse]
    omega
  keyed := by rw [huse, hdev]; exact h.keyed
  root := by rw [hvalid, hdev]; exact h.root
  lock := by rw [huse, hlock]; exact h.lock
  valid := by rw [huse, hvalid]; exact h.valid
  dirty := by rw [huse]; exact hdirty

variable [DecidableEq P]

theorem BufInv.move {g : Group.Sys P} {b b' : Buf P} (h : BufInv g b) {p : P} {v : Use}
    (huse : b'.use = Function.update b.use p v) (hdev : b'.dev = b.dev) (hno : b'.blockno = b.blockno)
    (hvalid : b.valid = true → b'.valid = true) (href : b'.refcnt = b.refcnt - (b.use p).refs + v.refs)
    (hkey : v ≠ .none → b.dev = ROOTDEV) (hroot : b'.valid = true → b.dev = ROOTDEV)
    (hlock : ∀ q, (Function.update b.use p v q).holds = true → b'.lock = some q)
    (hready : v = .ready ∨ v = .dirty → b'.valid = true)
    (hdirty : v = .dirty → (∃ l, g.pc p = .inOp l) ∧ ¬InLog g.log b.blockno) : BufInv g b' where
  refcnt := by
    rw [href, huse, sum_update Use.refs, h.refcnt, Buf.pins, Buf.pins, hdev, hno]
    omega
  keyed q hq := by
    rw [huse] at hq
    rw [hdev]
    by_cases hqp : q = p
    · subst hqp
      rw [Function.update_self] at hq
      exact hkey hq
    · rw [Function.update_of_ne hqp] at hq
      exact h.keyed q hq
  root hv := by rw [hdev]; exact hroot hv
  lock q hq := by
    rw [huse] at hq
    exact hlock q hq
  valid q hq := by
    rw [huse] at hq
    by_cases hqp : q = p
    · subst hqp
      rw [Function.update_self] at hq
      exact hready hq
    · rw [Function.update_of_ne hqp] at hq
      exact hvalid (h.valid q hq)
  dirty q hq := by
    rw [huse] at hq
    rw [hno]
    rcases update_cases hq with ⟨rfl, hv⟩ | ⟨-, hq⟩
    · exact hdirty hv
    · exact h.dirty q hq

theorem BufInv.lock_keep {g : Group.Sys P} {b : Buf P} (h : BufInv g b) {p : P} {v : Use}
    (hv : v.holds = true → (b.use p).holds = true) (q : P) (hq : (Function.update b.use p v q).holds = true) :
    b.lock = some q := by
  by_cases hqp : q = p
  · subst hqp
    rw [Function.update_self] at hq
    exact h.lock q (hv hq)
  · rw [Function.update_of_ne hqp] at hq
    exact h.lock q hq

omit [Fintype P] in
theorem update_keep {f : P → Use} {p q : P} {u v : Use} (hp : f p ≠ u) (hq : f q = u) :
    Function.update f p v q = u := by
  have hqp : q ≠ p := fun h => hp (h ▸ hq)
  rw [Function.update_of_ne hqp, hq]

variable {p : P} {i : Fin NBUF}

theorem inv_recycle {n : Nat} (inv : Inv s) (hmiss : ∀ j ∈ s.lru, ¬Key s j n) (h0 : (s.buf i).refcnt = 0) :
    Inv (s.set i ((s.buf i).recycle p n)) := by
  obtain ⟨hunused, hunpinned⟩ := (inv.buf i).unused h0
  have hmiss' : ∀ j, ¬Key s j n := fun j => hmiss j (inv.lru j)
  have hnpin : ¬Pinned s.grp n := fun hn => by
    obtain ⟨j, hk, -⟩ := inv.content.pinned n hn
    exact hmiss' j hk
  have hclean : ¬Dirty s i := by
    rintro (⟨q, hq⟩ | hs)
    · rw [hunused q] at hq; cases hq
    · obtain ⟨q, -, -, hq, -⟩ := inv.writing.sub i (Or.inl hs)
      rw [hunused q] at hq; cases hq
  generalize hb : (s.buf i).recycle p n = b
  have hkey : ∀ {j m}, Key (s.set i b) j m → (j = i ∧ m = n) ∨ (j ≠ i ∧ Key s j m) := by
    intro j m hk
    by_cases hj : j = i
    · subst hj
      unfold Key at hk
      rw [set_buf_self, ← hb] at hk
      exact Or.inl ⟨rfl, hk.2.symm⟩
    · unfold Key at hk ⊢
      rw [set_buf_ne s b hj] at hk
      exact Or.inr ⟨hj, hk⟩
  have hkey' : ∀ {j m}, j ≠ i → Key s j m → Key (s.set i b) j m := fun hj hk => by
    unfold Key at hk ⊢
    rw [set_buf_ne s b hj]
    exact hk
  exact {
    grp := inv.grp
    lru := inv.lru
    buf := fun j => by
      by_cases hj : j = i
      · subst hj
        rw [set_buf_self, ← hb]
        have huse : ∀ {q u}, u ≠ Use.none → Function.update (s.buf j).use p .ref q = u → u = .ref := by
          intro q u hu hq
          rcases update_cases hq with ⟨-, h⟩ | ⟨-, h⟩
          · exact h.symm
          · exact absurd (h.symm.trans (hunused q)) hu
        have hpins : ¬(ROOTDEV = ROOTDEV ∧ Pinned s.grp n) := fun h => hnpin h.2
        exact {
          refcnt := by
            show (1 : Int) = ∑ q, (Function.update (s.buf j).use p .ref q).refs +
              if ROOTDEV = ROOTDEV ∧ Pinned s.grp n then 1 else 0
            rw [if_neg hpins, sum_update Use.refs]
            simp [hunused, Use.refs]
          keyed := fun _ _ => rfl
          root := fun _ => rfl
          lock := fun q hq => by
            by_cases hn : Function.update (s.buf j).use p .ref q = .none
            · simp [Buf.recycle, hn, Use.holds] at hq
            · simp [Buf.recycle, huse hn rfl, Use.holds] at hq
          valid := fun q hq => by
            rcases hq with hq | hq
            · cases huse (by simp) hq
            · cases huse (by simp) hq
          dirty := fun q hq => by cases huse (by simp) hq }
      · rw [set_buf_ne s b hj]
        exact inv.buf j
    content := {
      unique := fun j k m hj hk => by
        rcases hkey hj with ⟨hji, hm⟩ | ⟨-, hj'⟩
        · rcases hkey hk with ⟨hki, -⟩ | ⟨-, hk'⟩
          · rw [hji, hki]
          · exact absurd (hm ▸ hk') (hmiss' k)
        · rcases hkey hk with ⟨-, hm⟩ | ⟨-, hk'⟩
          · exact absurd (hm ▸ hj') (hmiss' j)
          · exact inv.content.unique j k m hj' hk'
      data := fun j hd hv => by
        by_cases hj : j = i
        · subst hj
          rw [set_buf_self, ← hb] at hv
          cases hv
        · rw [set_buf_ne s b hj] at hd hv ⊢
          exact inv.content.data j hd hv
      disk := fun m => by
        rcases inv.content.disk m with h | h | ⟨j, hk, hd⟩
        · exact Or.inl h
        · exact Or.inr (Or.inl h)
        · have hj : j ≠ i := fun h => hclean (h ▸ hd)
          refine Or.inr (Or.inr ⟨j, hkey' hj hk, ?_⟩)
          unfold Dirty at hd ⊢
          rw [set_buf_ne s b hj]
          exact hd
      pinned := fun m hm => by
        obtain ⟨j, hk, hv⟩ := inv.content.pinned m hm
        have hj : j ≠ i := by
          rintro rfl
          exact hunpinned ⟨hk.1, hk.2.symm ▸ hm⟩
        refine ⟨j, hkey' hj hk, ?_⟩
        rw [set_buf_ne s b hj]
        exact hv }
    writing := {
      home := inv.writing.home
      fits := inv.writing.fits
      sub := fun j hj => by
        obtain ⟨q, ph, hq, hr, ht⟩ := inv.writing.sub j hj
        have hji : j ≠ i := by
          rintro rfl
          rw [hunused q] at hr; cases hr
        rw [set_buf_ne s b hji]
        exact ⟨q, ph, hq, hr, ht⟩
      flushed := fun j hj => by
        obtain ⟨q, ph, hq, hr, ht⟩ := inv.writing.sub j (Or.inr hj)
        have hji : j ≠ i := by
          rintro rfl
          rw [hunused q] at hr; cases hr
        rw [set_buf_ne s b hji]
        exact inv.writing.flushed j hj
      copied := inv.writing.copied } }

theorem inv_bget {n : Nat} (inv : Inv s) (h : step s (.bget p n) = .ok t) : Inv t := by
  rcases step_bget h with ⟨i, hk, hu, rfl⟩ | ⟨i, hmiss, h0, rfl⟩
  · have hb : BufInv s.grp ((s.buf i).hit p) := by
      refine (inv.buf i).move rfl rfl rfl id ?_ (fun _ => hk.1) (fun _ => hk.1) ((inv.buf i).lock_keep (by simp [Use.holds]))
        (by simp) (by simp)
      rw [hu]
      simp [Buf.hit, Buf.moveTo, Use.refs]
    exact inv.set inv.lru hb rfl rfl rfl rfl (fun q => update_keep (by simp [hu]))
      (fun q _ => update_keep (by simp [hu]))
  · exact inv_recycle inv hmiss h0

theorem inv_acquire (inv : Inv s) (h : step s (.acquire p i) = .ok t) : Inv t := by
  obtain ⟨hu, hfree, rfl⟩ := step_acquire h
  have hb : BufInv s.grp ((s.buf i).acquire p) := by
    refine (inv.buf i).move rfl rfl rfl id ?_ (fun _ => (inv.buf i).keyed p (by simp [hu])) (inv.buf i).root ?_
      (by simp) (by simp)
    · rw [hu]; simp [Buf.acquire, Use.refs]
    · intro q hq
      by_cases hqp : q = p
      · rw [hqp]; rfl
      · rw [Function.update_of_ne hqp] at hq
        have := (inv.buf i).lock q hq
        rw [hfree] at this
        cases this
  exact inv.set inv.lru hb rfl rfl rfl rfl (fun q => update_keep (by simp [hu]))
    (fun q _ => update_keep (by simp [hu]))

theorem inv_release (inv : Inv s) (h : step s (.release p i) = .ok t) : Inv t := by
  obtain ⟨hu, hsub, rfl⟩ := step_release h
  have hb : BufInv s.grp ((s.buf i).release p) := by
    refine (inv.buf i).move rfl rfl rfl id ?_ (fun _ => (inv.buf i).keyed p (by simp [hu])) (inv.buf i).root ?_
      (by simp) (by simp)
    · rw [hu]; simp [Buf.release, Use.refs]
    · intro q hq
      by_cases hqp : q = p
      · subst hqp; simp [Use.holds] at hq
      · rw [Function.update_of_ne hqp] at hq
        exact absurd ((inv.buf i).holder (by simp [hu, Use.holds]) hq) hqp
  refine inv.set inv.lru hb rfl rfl rfl rfl (fun q => update_keep (by simp [hu])) fun q hw => ?_
  -- the guard of `release` keeps the buffer of a running block write
  rcases hw with hw | hw <;> simp [hw, Sub.frees] at hsub

theorem inv_drop (inv : Inv s) (h : step s (.drop p i) = .ok t) : Inv t := by
  obtain ⟨hu, rfl⟩ := step_drop h
  have hb : BufInv s.grp ((s.buf i).drop p) := by
    refine (inv.buf i).move rfl rfl rfl id ?_ (by simp) (inv.buf i).root ((inv.buf i).lock_keep (by simp [Use.holds]))
      (by simp) (by simp)
    rw [hu]
    simp [Buf.drop, Buf.moveTo, Use.refs]
  have main : ∀ lru : List (Fin NBUF), (∀ j, j ∈ lru) →
      Inv { s.set i ((s.buf i).drop p) with lru := lru } := fun lru hlru =>
    inv.set hlru hb rfl rfl rfl rfl (fun q => update_keep (by simp [hu])) (fun q _ => update_keep (by simp [hu]))
  simp only [drop]
  split
  · refine main _ fun j => ?_
    by_cases hj : j = i
    · simp [hj]
    · exact List.mem_cons_of_mem _ ((List.mem_erase_of_ne hj).mpr (inv.lru j))
  · exact main s.lru inv.lru

/-! ### Steps that store into a buffer -/

omit [Fintype P] [DecidableEq P] in
theorem Content.store (h : Content s) {b : Buf P} (hdev : b.dev = (s.buf i).dev)
    (hno : b.blockno = (s.buf i).blockno) (hroot : (s.buf i).dev = ROOTDEV) (hgrp : t.grp = s.grp)
    (hbuf : t.buf = Function.update s.buf i b) (hdata : b.data = t.store (s.buf i).blockno)
    (hvalid : (s.buf i).valid = true → b.valid = true)
    (hstore : ∀ n, n ≠ (s.buf i).blockno → t.store n = s.store n)
    (hdisk : ∀ n, n ≠ (s.buf i).blockno → t.disk n = s.disk n)
    (hclean : t.disk (s.buf i).blockno = t.store (s.buf i).blockno ∨ Pinned s.grp (s.buf i).blockno ∨ Dirty t i)
    (hdirty : ∀ j, j ≠ i → Dirty s j → Dirty t j) : Content t := by
  have self : t.buf i = b := by rw [hbuf, Function.update_self]
  have other : ∀ {j}, j ≠ i → t.buf j = s.buf j := fun hj => by rw [hbuf, Function.update_of_ne hj]
  have hkey : ∀ j n, Key t j n ↔ Key s j n := fun j n => by
    unfold Key
    by_cases hj : j = i
    · rw [hj, self, hdev, hno]
    · rw [other hj]
  exact {
    unique := fun j k n hj hk => h.unique j k n ((hkey j n).mp hj) ((hkey k n).mp hk)
    data := fun j hd hv => by
      by_cases hj : j = i
      · rw [hj, self, hno, hdata]
      · rw [other hj] at hd hv ⊢
        have hne : (s.buf j).blockno ≠ (s.buf i).blockno := fun he => hj (h.unique j i _ ⟨hd, he⟩ ⟨hroot, rfl⟩)
        rw [hstore _ hne]
        exact h.data j hd hv
    disk := fun n => by
      rw [hgrp]
      by_cases hn : n = (s.buf i).blockno
      · subst hn
        rcases hclean with hc | hc | hc
        · exact Or.inl hc
        · exact Or.inr (Or.inl hc)
        · exact Or.inr (Or.inr ⟨i, (hkey i _).mpr ⟨hroot, rfl⟩, hc⟩)
      · rw [hstore n hn, hdisk n hn]
        rcases h.disk n with hd | hp | ⟨j, hk, hd⟩
        · exact Or.inl hd
        · exact Or.inr (Or.inl hp)
        · have hj : j ≠ i := fun he => hn (he ▸ hk.2.symm)
          exact Or.inr (Or.inr ⟨j, (hkey j n).mpr hk, hdirty j hj hd⟩)
    pinned := fun n hn => by
      rw [hgrp] at hn
      obtain ⟨j, hk, hv⟩ := h.pinned n hn
      refine ⟨j, (hkey j n).mpr hk, ?_⟩
      by_cases hj : j = i
      · rw [hj, self]; exact hvalid (hj ▸ hv)
      · rw [other hj]; exact hv }

theorem Inv.fill_data (inv : Inv s) (hu : (s.buf i).use p = .locked) :
    ((s.buf i).fill p (s.disk (s.buf i).blockno)).data = s.store (s.buf i).blockno := by
  have hdev := (inv.buf i).keyed p (by simp [hu])
  by_cases hv : (s.buf i).valid = true
  · simp only [Buf.fill, hv, ↓reduceIte]
    exact inv.content.data i hdev hv
  · simp only [Buf.fill, hv, Bool.false_eq_true, ↓reduceIte]
    refine inv.disk_of_uncached fun j hk => ?_
    rw [inv.content.unique j i _ hk ⟨hdev, rfl⟩]
    simpa using hv

theorem inv_fill (inv : Inv s) (h : step s (.fill p i) = .ok t) : Inv t := by
  obtain ⟨hu, rfl⟩ := step_fill h
  have hdev := (inv.buf i).keyed p (by simp [hu])
  have hb : BufInv s.grp ((s.buf i).fill p (s.disk (s.buf i).blockno)) := by
    refine (inv.buf i).move rfl rfl rfl (fun _ => rfl) ?_ (fun _ => hdev) (fun _ => hdev) ((inv.buf i).lock_keep ?_)
      (fun _ => rfl) (by simp)
    · rw [hu]; simp [Buf.fill, Use.refs]
    · rw [hu]; simp [Use.holds]
  have huse : ∀ {q u}, u ≠ Use.locked → (s.buf i).use q = u →
      ((s.buf i).fill p (s.disk (s.buf i).blockno)).use q = u := fun hne => update_keep (by rw [hu]; exact hne.symm)
  exact {
    grp := inv.grp
    lru := inv.lru
    buf := forall_set hb fun j _ => inv.buf j
    content := by
      refine inv.content.store (i := i) (b := (s.buf i).fill p _) rfl rfl hdev rfl rfl (inv.fill_data hu) (fun _ => rfl) (fun _ _ => rfl)
        (fun _ _ => rfl) ?_ fun j hj hd => ?_
      · rcases inv.content.disk (s.buf i).blockno with hd | hd | ⟨j, hk, hd⟩
        · exact Or.inl hd
        · exact Or.inr (Or.inl hd)
        · right; right
          obtain rfl := inv.content.unique j i _ hk ⟨hdev, rfl⟩
          rcases hd with ⟨q, hq⟩ | hs
          · exact Or.inl ⟨q, by rw [set_buf_self]; exact huse (by simp) hq⟩
          · exact Or.inr hs
      · unfold Dirty at hd ⊢
        rw [set_buf_ne s _ hj]
        exact hd
    writing := by
      refine inv.writing.same ?_ rfl rfl rfl rfl fun j q _ => ?_
      · exact forall_set (Q := fun j c => c.blockno = (s.buf j).blockno) rfl fun _ _ => rfl
      · exact forall_set (Q := fun j c => (s.buf j).use q = .ready → c.use q = .ready) (huse (by simp))
          (fun _ _ => id) j }

theorem inv_modify {x : Block} (inv : Inv s) (h : step s (.modify p i x) = .ok t) : Inv t := by
  obtain ⟨⟨l, hp⟩, hu, hout, rfl⟩ := step_modify h
  have hdev : (s.buf i).dev = ROOTDEV := (inv.buf i).keyed p (by rcases hu with hu | hu <;> simp [hu])
  have hvalid : (s.buf i).valid = true := (inv.buf i).valid p hu
  have hb : BufInv s.grp ((s.buf i).modify p x) := by
    refine (inv.buf i).move rfl rfl rfl id ?_ (fun _ => hdev) (fun _ => hdev) ((inv.buf i).lock_keep fun _ => ?_)
      (fun _ => hvalid) (fun _ => ⟨⟨l, hp⟩, hout⟩)
    · rcases hu with hu | hu <;> rw [hu] <;> simp [Buf.modify, Use.refs]
    · rcases hu with hu | hu <;> rw [hu] <;> rfl
  -- the process is in an operation, so no commit is running
  have quiet : ∀ {j}, ¬s.sub.writes j := fun hw => by
    obtain ⟨q, ph, hq, -⟩ := inv.writing.sub _ hw
    exact inv.not_commit_of_op hp hq
  exact {
    grp := inv.grp
    lru := inv.lru
    buf := forall_set hb fun j _ => inv.buf j
    content := by
      have hdata : x = Function.update s.store (s.buf i).blockno x (s.buf i).blockno := by
        rw [Function.update_self]
      refine inv.content.store (i := i) (b := (s.buf i).modify p x) rfl rfl hdev rfl rfl hdata
        id (fun n hn => Function.update_of_ne hn ..) (fun _ _ => rfl) ?_ fun j hj hd => ?_
      · exact Or.inr (Or.inr (Or.inl ⟨p, by
          show ((s.set i _).buf i).use p = .dirty
          rw [set_buf_self]
          exact Function.update_self ..⟩))
      · rcases hd with ⟨q, hq⟩ | hs
        · exact Or.inl ⟨q, by
            show ((s.set i _).buf j).use q = .dirty
            rw [set_buf_ne s _ hj]
            exact hq⟩
        · exact Or.inr hs
    writing := {
      home := inv.writing.home
      fits := inv.writing.fits
      sub := fun j hw => absurd hw quiet
      flushed := fun j hj => absurd (Or.inr hj) quiet
      copied := fun q ph hq => absurd hq (inv.not_commit_of_op hp) } }

theorem inv_logWrite (inv : Inv s) (h : step s (.logWrite p i) = .ok t) : Inv t := by
  obtain ⟨hu, hout, g, hg, rfl⟩ := step_logWrite h
  have hginv := Group.inv_logWrite inv.grp hg
  obtain ⟨l, hp, -, hroom, hgeq⟩ := Group.step_logWrite hg
  have hdev : (s.buf i).dev = ROOTDEV := (inv.buf i).keyed p (by rcases hu with hu | hu <;> simp [hu])
  have hvalid : (s.buf i).valid = true := (inv.buf i).valid p hu
  have hwritten : s.grp.hist.written = [] := inv.grp.unwritten (inv.grp.open_quiet p l hp)
  have hlh : g.log.lh = s.grp.log.lh.log (s.buf i).blockno := by rw [hgeq]
  have hinLog : ∀ m, InLog g.log m ↔ InLog s.grp.log m := fun m => by rw [hgeq]; rfl
  -- after the call the block is pinned; every other block is pinned as before
  have pinned_iff : ∀ m, Pinned g m ↔ Pinned s.grp m ∨ m = (s.buf i).blockno := fun m => by
    unfold Pinned
    rw [hlh, show g.hist.written = s.grp.hist.written by rw [hgeq], LogHeader.mem_blocks_log, hwritten]
    simp
  have hop : ∀ q, (∃ l, s.grp.pc q = .inOp l) → ∃ l, g.pc q = .inOp l := fun q ⟨l', hq⟩ => by
    by_cases hqp : q = p
    · exact ⟨l ++ [(s.buf i).blockno], by rw [hqp, hgeq]; exact Function.update_self ..⟩
    · exact ⟨l', by rw [hgeq]; exact (Function.update_of_ne hqp ..).trans hq⟩
  have quiet : ∀ {j}, ¬s.sub.writes j := fun hw => by
    obtain ⟨q, ph, hq, -⟩ := inv.writing.sub _ hw
    exact inv.not_commit_of_op hp hq
  generalize hpin : (if s.grp.log.lh.slot (s.buf i).blockno = s.grp.log.lh.n then (1 : Int) else 0) = pin
  have hb : BufInv g ((s.buf i).logged p pin) := by
    have hb0 : BufInv s.grp ((s.buf i).logged p 0) := by
      refine (inv.buf i).move rfl rfl rfl id ?_ (fun _ => hdev) (fun _ => hdev) ((inv.buf i).lock_keep fun _ => ?_)
        (fun _ => hvalid) (by simp)
      · rcases hu with hu | hu <;> rw [hu] <;> simp [Buf.logged, Buf.moveTo, Use.refs]
      · rcases hu with hu | hu <;> rw [hu] <;> rfl
    refine hb0.regroup rfl rfl rfl rfl ?_ fun q hq => ?_
    · have hnew : ((s.buf i).logged p pin).pins g = 1 := if_pos ⟨hdev, (pinned_iff _).mpr (Or.inr rfl)⟩
      have hold : ((s.buf i).logged p 0).pins s.grp = 1 - pin := by
        show (if (s.buf i).dev = ROOTDEV ∧ Pinned s.grp (s.buf i).blockno then (1 : Int) else 0) = _
        rw [← hpin]
        by_cases hmem : (s.buf i).blockno ∈ s.grp.log.lh.blocks
        · have hslot := Nat.ne_of_lt (LogHeader.slot_of_mem hmem).1
          simp [Pinned, hdev, hmem, hwritten, hslot]
        · simp [Pinned, hmem, LogHeader.slot_of_not_mem hmem]
      rw [hnew, hold]
      simp only [Buf.logged, Buf.moveTo]
      omega
    · obtain ⟨h1, h2⟩ := hb0.dirty q hq
      exact ⟨hop q h1, fun hin => h2 ((hinLog _).mp hin)⟩
  have hother : ∀ j, j ≠ i → BufInv g (s.buf j) := fun j hj => by
    refine (inv.buf j).regroup rfl rfl rfl rfl ?_ fun q hq => ?_
    · have hiff : (s.buf j).dev = ROOTDEV ∧ Pinned g (s.buf j).blockno ↔
          (s.buf j).dev = ROOTDEV ∧ Pinned s.grp (s.buf j).blockno := by
        rw [pinned_iff]
        refine and_congr_right fun hd => ⟨fun hor => hor.resolve_right fun he => ?_, Or.inl⟩
        exact hj (inv.content.unique j i _ ⟨hd, he⟩ ⟨hdev, rfl⟩)
      simp only [Buf.pins, hiff]
    · obtain ⟨h1, h2⟩ := (inv.buf j).dirty q hq
      exact ⟨hop q h1, fun hin => h2 ((hinLog _).mp hin)⟩
  exact {
    grp := hginv
    lru := inv.lru
    buf := forall_set hb hother
    content := by
      refine inv.content.same (t := { s.set i ((s.buf i).logged p pin) with grp := g }) ?_ (fun n hn => ?_) fun n hn => ?_
      · obtain ⟨h1, h2, h3, h4, h5, h6⟩ := Same.set (s := s) (i := i) (b := (s.buf i).logged p pin) rfl rfl rfl rfl
        exact ⟨h1, h2, h3, h4, h5, h6⟩
      · rcases (pinned_iff n).mp hn with hn | rfl
        · exact inv.content.pinned n hn
        · exact ⟨i, ⟨hdev, rfl⟩, hvalid⟩
      · rcases hn with hn | ⟨j, hk, hd⟩
        · exact Or.inr (Or.inl ((pinned_iff n).mpr (Or.inl hn)))
        · by_cases hj : j = i
          · exact Or.inr (Or.inl ((pinned_iff n).mpr (Or.inr (hj ▸ hk.2.symm))))
          · refine Or.inr (Or.inr ⟨j, hk, ?_⟩)
            rcases hd with ⟨q, hq⟩ | hs
            · exact Or.inl ⟨q, (congrArg (·.use q) (set_buf_ne s _ hj)).trans hq⟩
            · exact Or.inr hs
    writing := {
      home := fun n hn => by
        rw [hlh, LogHeader.mem_blocks_log] at hn
        rw [hinLog]
        rcases hn with hn | rfl
        · exact inv.writing.home n hn
        · exact hout
      fits := by
        right
        rw [hlh, show g.log.size = s.grp.log.size by rw [hgeq]]
        simp only [LogHeader.log]
        split <;> omega
      sub := fun j hw => absurd hw quiet
      flushed := fun j hj => absurd (Or.inr hj) quiet
      copied := fun q ph hq => by
        rw [hgeq] at hq
        exact absurd (update_back (by simp) hq) (inv.not_commit_of_op hp) } }

end

end Xv6.Bio
