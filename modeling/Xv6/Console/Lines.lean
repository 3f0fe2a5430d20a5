import Xv6.Console.Basic
import Xv6.Lib.Ring

/-! The console refines a line editor: what readers consume is a prefix of what the reference editor commits. -/

namespace Xv6.Console
open Lib

/-! ### One character -/

/-- The buffer holds what the editor has and no reader has consumed. -/
structure Holds (c : Cons) (ed : Editor) (taken : List UInt8) : Prop where
  ring : Ring (2 ^ 32) c.buf c.r.toNat c.e.toNat (ed.out ++ ed.line) taken
  write : c.w.toNat = ed.out.length % 2 ^ 32
  fifo : taken <+: ed.out
  open_ : NL ∉ ed.line

theorem toNat_distance {a b : UInt32} {x y : Nat} (ha : a.toNat = x % 2 ^ 32) (hb : b.toNat = y % 2 ^ 32)
    (hle : y ≤ x) (hlt : x < y + 2 ^ 32) : (a - b).toNat = x - y := by
  rw [UInt32.toNat_sub, ha, hb]
  omega

namespace Holds
variable {c : Cons} {ed : Editor} {taken : List UInt8}

theorem room (h : Holds c ed taken) : ed.out.length + ed.line.length ≤ taken.length + INPUT_BUF_SIZE := by
  simpa using h.ring.room

theorem used (h : Holds c ed taken) : (c.e - c.r).toNat = (ed.out ++ ed.line).length - taken.length := by
  have := h.room
  have := h.fifo.length_le
  refine toNat_distance h.ring.write h.ring.read h.ring.fifo.length_le ?_
  rw [List.length_append]
  unfold INPUT_BUF_SIZE at *
  omega

theorem unread (h : Holds c ed taken) : (c.w - c.r).toNat = ed.out.length - taken.length := by
  have := h.room
  refine toNat_distance h.write h.ring.read h.fifo.length_le ?_
  unfold INPUT_BUF_SIZE at *
  omega

theorem uncommitted (h : Holds c ed taken) : (c.e - c.w).toNat = ed.line.length := by
  have := h.room
  have := h.fifo.length_le
  rw [toNat_distance h.ring.write h.write (by simp) (by rw [List.length_append]; unfold INPUT_BUF_SIZE at *; omega),
    List.length_append, Nat.add_sub_cancel_left]

theorem edited (h : Holds c ed taken) : c.e = c.w ↔ ed.line = [] := by
  rw [← List.length_eq_zero_iff, ← h.uncommitted]
  constructor
  · rintro he
    rw [he, UInt32.sub_self]
    rfl
  · intro h0
    rw [UInt32.sub_eq_iff_eq_add.mp (UInt32.toNat_inj.mp h0 : c.e - c.w = 0), UInt32.zero_add]

theorem drained (h : Holds c ed taken) : c.r = c.w ↔ taken.length = ed.out.length := by
  have hle := h.fifo.length_le
  constructor
  · intro he
    have h0 := h.unread
    rw [he, UInt32.sub_self] at h0
    have : (0 : UInt32).toNat = 0 := rfl
    omega
  · intro he
    have h0 : (c.w - c.r).toNat = 0 := by rw [h.unread]; omega
    rw [UInt32.sub_eq_iff_eq_add.mp (UInt32.toNat_inj.mp h0 : c.w - c.r = 0), UInt32.zero_add]

theorem cell_add (h : Holds c ed taken) {i : UInt32} {x k : Nat} (hi : i.toNat = x % 2 ^ 32)
    (hx : taken.length ≤ x) (hk : x + k < (ed.out ++ ed.line).length) :
    cell c (i + k.toUInt32) = (ed.out ++ ed.line)[x + k] := by
  rw [← h.ring.cells (x + k) hk (by omega)]
  unfold cell
  congr 1
  apply Fin.ext
  have : (Nat.toUInt32 k).toNat = k % 2 ^ 32 := rfl
  simp only [Fin.ofNat, UInt32.toNat_add, hi, this]
  unfold INPUT_BUF_SIZE
  omega

theorem cell_read (h : Holds c ed taken) (hlt : taken.length < ed.out.length) :
    cell c c.r = ed.out[taken.length] := by
  have hc := h.cell_add (k := 0) h.ring.read le_rfl (by rw [List.length_append]; omega)
  rw [show Nat.toUInt32 0 = 0 from rfl, UInt32.add_zero] at hc
  rw [hc]
  exact List.getElem_append_left hlt

theorem cell_last (h : Holds c ed taken) {l : List UInt8} {x : UInt8} (hl : ed.line = l ++ [x]) :
    cell c (c.e - 1) = x := by
  have hlen : (ed.out ++ ed.line).length = ed.out.length + l.length + 1 := by simp [hl]; omega
  have hle := h.fifo.length_le
  have hroom := h.room
  have hx : (ed.out ++ ed.line)[ed.out.length + l.length] = x := by simp [hl]
  rw [← hx, ← h.ring.cells _ (by omega) (by omega)]
  unfold cell
  congr 1
  apply Fin.ext
  have h1 : (1 : UInt32).toNat = 1 := rfl
  have hw := h.ring.write
  simp only [Fin.ofNat, UInt32.toNat_sub, h1, hw, hlen]
  unfold INPUT_BUF_SIZE
  omega

theorem erase (h : Holds c ed taken) {l : List UInt8} {x : UInt8} (hl : ed.line = l ++ [x]) :
    Holds (erase c) { ed with line := l } taken := by
  have hring := h.ring
  rw [hl, ← List.append_assoc] at hring
  refine ⟨?_, h.write, h.fifo, ?_⟩
  · have := hring.retract (by decide) (by have := h.fifo.length_le; rw [List.length_append]; omega)
    rw [show (Console.erase c).e.toNat = (c.e.toNat + (2 ^ 32 - 1)) % 2 ^ 32 from by
      unfold Console.erase
      rw [UInt32.toNat_sub, Nat.add_comm]
      rfl]
    exact this
  · intro hmem
    exact h.open_ (by rw [hl]; exact List.mem_append_left _ hmem)

theorem killLine (k : Nat) (h : Holds c ed taken) (hk : ed.line.length = k) :
    Holds (killLine k c) { ed with line := [] } taken := by
  induction k generalizing c ed with
  | zero =>
    rw [Console.killLine, ← List.length_eq_zero_iff.mp hk]
    exact h
  | succ k ih =>
    have hne : ed.line ≠ [] := by rintro h0; rw [h0] at hk; cases hk
    obtain ⟨l, x, hl⟩ := List.eq_nil_or_concat' ed.line |>.resolve_left hne
    have hx : x ≠ NL := fun he => h.open_ (by rw [hl, he]; simp)
    rw [Console.killLine, if_pos ⟨fun he => hne (h.edited.mp he), by rwa [h.cell_last hl]⟩]
    have hlen : l.length = k := by rw [hl] at hk; simpa using hk
    have hrest := ih (h.erase hl) hlen
    exact hrest

theorem backspace (h : Holds c ed taken) :
    Holds (if c.e ≠ c.w then Console.erase c else c) { ed with line := ed.line.dropLast } taken := by
  rcases List.eq_nil_or_concat' ed.line with h0 | ⟨l, x, hl⟩
  · rw [if_neg (not_not_intro (h.edited.mpr h0)), h0, List.dropLast_nil, ← h0]
    exact h
  · rw [if_pos fun he => by rw [h.edited.mp he] at hl; exact absurd hl (by simp), hl, List.dropLast_concat]
    exact h.erase hl

theorem not_full (h : Holds c ed taken) (hlt : (ed.out ++ ed.line).length - taken.length < INPUT_BUF_SIZE) :
    c.e.toNat ≠ (c.r.toNat + INPUT_BUF_SIZE) % 2 ^ 32 := by
  rw [ne_eq, h.ring.full_iff (by decide)]
  omega

theorem put_ring (h : Holds c ed taken) (hlt : (ed.out ++ ed.line).length - taken.length < INPUT_BUF_SIZE) (ch : UInt8) :
    Ring (2 ^ 32) (put c ch).buf (put c ch).r.toNat (put c ch).e.toNat (ed.out ++ (ed.line ++ [ch])) taken := by
  have := h.ring.push (by decide) (by decide) (h.not_full hlt) ch
  rw [List.append_assoc] at this
  exact this

theorem commit (h : Holds c ed taken) (hlt : (ed.out ++ ed.line).length - taken.length < INPUT_BUF_SIZE) (ch : UInt8) :
    Holds (Console.commit (put c ch)) { out := ed.out ++ (ed.line ++ [ch]), line := [] } taken where
  ring := by rw [List.append_nil]; exact h.put_ring hlt ch
  write := (h.put_ring hlt ch).write
  fifo := h.fifo.trans (List.prefix_append ..)
  open_ := List.not_mem_nil

theorem put (h : Holds c ed taken) (hlt : (ed.out ++ ed.line).length - taken.length < INPUT_BUF_SIZE) {ch : UInt8}
    (hch : ch ≠ NL) : Holds (put c ch) { ed with line := ed.line ++ [ch] } taken where
  ring := h.put_ring hlt ch
  write := h.write
  fifo := h.fifo
  open_ hmem := by
    rcases List.mem_append.mp hmem with hold | hnew
    · exact h.open_ hold
    · exact hch (List.mem_singleton.mp hnew).symm

theorem put_used (h : Holds c ed taken) (hlt : (ed.out ++ ed.line).length - taken.length < INPUT_BUF_SIZE) (ch : UInt8) :
    ((Console.put c ch).e - (Console.put c ch).r).toNat = (ed.out ++ (ed.line ++ [ch])).length - taken.length :=
  (h.commit hlt ch).used.trans (by rw [List.append_nil])

end Holds

theorem lt_size_iff (a : UInt32) : a < INPUT_BUF_SIZE.toUInt32 ↔ a.toNat < INPUT_BUF_SIZE :=
  UInt32.lt_iff_toNat_lt

theorem eq_size_iff (a : UInt32) : a = INPUT_BUF_SIZE.toUInt32 ↔ a.toNat = INPUT_BUF_SIZE :=
  UInt32.toNat_inj.symm

theorem Holds.consoleintr {c : Cons} {ed : Editor} {taken : List UInt8} (h : Holds c ed taken) (ch : UInt8) :
    Holds (consoleintr c ch) (ed.input taken.length ch) taken := by
  unfold Console.consoleintr Editor.input
  by_cases hP : ch = C 'P'
  · rw [if_pos hP, if_pos (.inl hP)]
    exact h
  rw [if_neg hP]
  by_cases h0 : ch = 0
  · subst h0
    rw [if_neg (by decide), if_neg (by decide), if_pos (.inr rfl), store, if_neg fun hc => hc.1 rfl]
    exact h
  rw [if_neg (not_or_intro hP h0)]
  by_cases hU : ch = C 'U'
  · rw [if_pos hU, if_pos hU, h.uncommitted]
    exact h.killLine _ rfl
  rw [if_neg hU, if_neg hU]
  by_cases hH : ch = C 'H' ∨ ch = DEL
  · rw [if_pos hH, if_pos hH]
    exact h.backspace
  rw [if_neg hH, if_neg hH, store]
  by_cases hlt : (ed.out ++ ed.line).length - taken.length < INPUT_BUF_SIZE
  · rw [if_pos ⟨h0, (lt_size_iff _).mpr (by rwa [h.used])⟩, if_pos hlt]
    generalize hnl : (if ch = CR then NL else ch) = x
    simp only [eq_size_iff, h.put_used hlt x]
    split
    · exact h.commit hlt x
    · rename_i hopen
      exact h.put hlt fun he => hopen (.inl he)
  · rw [if_neg fun hc => hlt (by rw [← h.used]; exact (lt_size_iff _).mp hc.2), if_neg hlt]
    exact h

theorem Editor.out_grows (ed : Editor) (taken : Nat) (ch : UInt8) : ed.out <+: (ed.input taken ch).out := by
  unfold Editor.input
  simp only
  repeat' split
  all_goals first | exact List.prefix_rfl | exact List.prefix_append ..

theorem Holds.between_read {c : Cons} {ed : Editor} {taken : List UInt8} (h : Holds c ed taken) :
    between c c.r c.w = ed.out.drop taken.length := by
  unfold between
  rw [h.unread]
  refine List.ext_getElem (by simp) fun k hk _ => ?_
  rw [List.length_map, List.length_range] at hk
  rw [List.getElem_map, List.getElem_range, h.cell_add h.ring.read le_rfl (by rw [List.length_append]; omega),
    List.getElem_append_left (by omega), List.getElem_drop]

theorem Holds.between_edit {c : Cons} {ed : Editor} {taken : List UInt8} (h : Holds c ed taken) :
    between c c.w c.e = ed.line := by
  unfold between
  rw [h.uncommitted]
  refine List.ext_getElem (by simp) fun k hk _ => ?_
  rw [List.length_map, List.length_range] at hk
  rw [List.getElem_map, List.getElem_range, h.cell_add h.write h.fifo.length_le (by rw [List.length_append]; omega),
    List.getElem_append_right (by omega)]
  simp

theorem Holds.take {c : Cons} {ed : Editor} {taken : List UInt8} (h : Holds c ed taken) (hne : c.r ≠ c.w) :
    Holds { c with r := c.r + 1 } ed (taken ++ [cell c c.r]) := by
  have hlt : taken.length < ed.out.length := lt_of_le_of_ne h.fifo.length_le fun he => hne (h.drained.mpr he)
  have hre : c.r.toNat ≠ c.e.toNat := by
    rw [ne_eq, h.ring.empty_iff (by decide), List.length_append]
    omega
  refine ⟨h.ring.pop (by decide) (by decide) hre, h.write, ?_, h.open_⟩
  rw [h.cell_read hlt]
  exact List.concat_get_prefix h.fifo hlt

/-! ### Runs -/

section
variable {ι : Type}

def Pc.call? : Pc → Option Call
  | .user => none
  | .enter x | .loop x | .asleep x | .back x _ => some x

def Call.Ok (x : Call) : Prop := x.target - x.n = x.got.length ∧ (0 ≤ x.n ∨ x.got = [])

structure Inv (s : Sys ι) : Prop where
  holds : Holds s.cons s.editor s.taken
  calls : ∀ p x, (s.pc p).call? = some x → x.Ok

theorem Call.Ok.deliver {x : Call} (h : x.Ok) (hn : 0 < x.n) (ch : UInt8) : (x.deliver ch).Ok := by
  obtain ⟨hlen, -⟩ := h
  refine ⟨?_, .inl ?_⟩
  · simp only [Call.deliver, List.length_append, List.length_singleton]
    omega
  · simp only [Call.deliver]
    omega

theorem Inv.lock {s : Sys ι} (h : Inv s) (l : Option ι) : Inv { s with lock := l } := ⟨h.holds, h.calls⟩

theorem Inv.take {s : Sys ι} (h : Inv s) (hne : s.cons.r ≠ s.cons.w) : Inv s.take := ⟨h.holds.take hne, h.calls⟩

theorem Start.inv {s : Sys ι} (h : Start s) : Inv s := by
  refine ⟨⟨?_, ?_, ?_, ?_⟩, fun p x hx => ?_⟩
  · rw [h.r, h.e, h.editor, h.taken]
    exact Ring.empty _
  · rw [h.w, h.editor]
    rfl
  · rw [h.taken]
    exact List.nil_prefix
  · rw [h.editor]
    exact List.not_mem_nil
  · rw [h.pc p] at hx
    cases hx

variable [DecidableEq ι]

theorem pc_goto (s : Sys ι) (p : ι) (pc : Pc) : (s.goto p pc).pc p = pc := Function.update_self ..

theorem pc_goto_ne (s : Sys ι) {p q : ι} (pc : Pc) (h : q ≠ p) : (s.goto p pc).pc q = s.pc q :=
  Function.update_of_ne h ..

theorem Inv.goto {s : Sys ι} (h : Inv s) (p : ι) (pc : Pc) {x : Call} (hpc : pc.call? = some x) (hok : x.Ok) :
    Inv (s.goto p pc) := by
  refine ⟨h.holds, fun q y hq => ?_⟩
  by_cases hqp : q = p
  · subst hqp
    rw [pc_goto, hpc] at hq
    cases hq
    exact hok
  · rw [pc_goto_ne s pc hqp] at hq
    exact h.calls q y hq

theorem Inv.readRound {s : Sys ι} (h : Inv s) {p : ι} {x : Call} (hx : s.pc p = .loop x) :
    Inv (readRound s p x) := by
  have hok : x.Ok := h.calls p x (by rw [hx]; rfl)
  unfold Console.readRound
  simp only
  split
  · rename_i hn
    split
    · split
      · exact (h.goto p (.back x (-1)) rfl hok).lock none
      · exact (h.goto p (.asleep x) rfl hok).lock none
    · rename_i hne
      have hok' := hok.deliver hn (cell s.cons s.cons.r)
      split
      · split
        · exact (h.goto p (.back x (x.target - x.n)) rfl hok).lock none
        · exact ((h.take hne).goto p (.back x (x.target - x.n)) rfl hok).lock none
      · split
        · exact ((h.take hne).goto p (.back _ _) rfl hok').lock none
        · exact (h.take hne).goto p (.loop _) rfl hok'
  · exact (h.goto p (.back x (x.target - x.n)) rfl hok).lock none

theorem step_inv {s t : Sys ι} {a : Action ι} (h : Inv s) (hs : step s a = .ok t) : Inv t := by
  cases a with
  | intr ch =>
    simp only [step] at hs
    split at hs <;> cases hs
    exact ⟨h.holds.consoleintr ch, h.calls⟩
  | call p n =>
    simp only [step] at hs
    split at hs <;> cases hs
    all_goals exact h.goto p (.enter ⟨n, n, []⟩) rfl ⟨by simp, .inr rfl⟩
  | run p =>
    simp only [step] at hs
    split at hs
    · rename_i x hx
      split at hs <;> cases hs
      exact (h.goto p (.loop x) rfl (h.calls p x (by rw [hx]; rfl))).lock (some p)
    · rename_i x hx
      cases hs
      exact h.readRound hx
    · cases hs
  | wake p =>
    simp only [step] at hs
    split at hs
    · rename_i x hx
      cases hs
      exact h.goto p (.enter x) rfl (h.calls p x (by rw [hx]; rfl))
    · cases hs
  | kill p =>
    cases hs
    exact ⟨h.holds, h.calls⟩

theorem Reached.inv {s : Sys ι} (h : Reached s) : Inv s :=
  Reach.invariant (I := Inv) (fun _ => Start.inv) (fun _ _ _ hi _ hs => step_inv hi hs) h

theorem readRound_grows (s : Sys ι) (p : ι) (x : Call) :
    (readRound s p x).editor = s.editor ∧ s.taken <+: (readRound s p x).taken := by
  unfold readRound
  simp only
  repeat' split
  all_goals exact ⟨rfl, by first | exact List.prefix_rfl | exact List.prefix_append ..⟩

theorem step_grows {s t : Sys ι} {a : Action ι} (hs : step s a = .ok t) :
    s.editor.out <+: t.editor.out ∧ s.taken <+: t.taken := by
  cases a with
  | intr ch =>
    simp only [step] at hs
    split at hs <;> cases hs
    exact ⟨Editor.out_grows .., List.prefix_rfl⟩
  | call p n =>
    simp only [step] at hs
    split at hs <;> cases hs
    all_goals exact ⟨List.prefix_rfl, List.prefix_rfl⟩
  | run p =>
    simp only [step] at hs
    split at hs
    · split at hs <;> cases hs
      exact ⟨List.prefix_rfl, List.prefix_rfl⟩
    · cases hs
      obtain ⟨hed, htaken⟩ := readRound_grows s p ‹_›
      exact ⟨by rw [hed], htaken⟩
    · cases hs
  | wake p =>
    simp only [step] at hs
    split at hs <;> cases hs
    exact ⟨List.prefix_rfl, List.prefix_rfl⟩
  | kill p =>
    cases hs
    exact ⟨List.prefix_rfl, List.prefix_rfl⟩

def Later (s t : Sys ι) : Prop := Reach (· = s) step (fun _ _ => True) t

theorem Later.grows {s t : Sys ι} (h : Later s t) : s.editor.out <+: t.editor.out ∧ s.taken <+: t.taken := by
  refine Reach.invariant (I := fun t => s.editor.out <+: t.editor.out ∧ s.taken <+: t.taken) ?_ ?_ h
  · rintro t rfl
    exact ⟨List.prefix_rfl, List.prefix_rfl⟩
  · intro u v a ⟨hout, htaken⟩ _ hs
    obtain ⟨hout', htaken'⟩ := step_grows hs
    exact ⟨hout.trans hout', htaken.trans htaken'⟩

theorem Later.inv {s t : Sys ι} (h : Later s t) (hs : Inv s) : Inv t :=
  Reach.invariant (I := Inv) (by rintro t rfl; exact hs) (fun _ _ _ hi _ h => step_inv hi h) h

theorem Later.next {s t : Sys ι} (h : Later s t) (hs : Inv s) (hne : s.cons.r ≠ s.cons.w) (htaken : t.taken = s.taken) :
    t.cons.r ≠ t.cons.w ∧ cell t.cons t.cons.r = cell s.cons s.cons.r := by
  have ht := h.inv hs
  have hlt : s.taken.length < s.editor.out.length :=
    lt_of_le_of_ne hs.holds.fifo.length_le fun he => hne (hs.holds.drained.mpr he)
  have hlt' : t.taken.length < t.editor.out.length := by
    rw [htaken]
    exact hlt.trans_le h.grows.1.length_le
  refine ⟨fun he => hlt'.ne (ht.holds.drained.mp he), ?_⟩
  rw [ht.holds.cell_read hlt', hs.holds.cell_read hlt]
  simp only [htaken]
  exact (List.IsPrefix.getElem h.grows.1 hlt).symm

/-- The ways in which a call at the head of its loop in `s` comes back in `t`, as `y` and with a result. -/
inductive Returns (s t : Sys ι) (p : ι) (x y : Call) : Int → Prop where
  | killed : s.killed p = true → s.cons.r = s.cons.w → y = x → t.taken = s.taken → Returns s t p x y (-1)
  -- all `n` bytes, of which there are none if `n` is negative
  | enough : y = x → x.got.length = x.target.toNat → t.taken = s.taken → Returns s t p x y x.got.length
  | line : y.got = x.got ++ [NL] → t.taken = s.taken ++ [NL] → Returns s t p x y y.got.length
  -- control-D is consumed by a read that has delivered nothing
  | eof : y = x → s.cons.r ≠ s.cons.w → cell s.cons s.cons.r = C 'D' →
      t.taken = (if x.got = [] then s.taken ++ [C 'D'] else s.taken) → Returns s t p x y x.got.length

theorem Call.Ok.fresh_iff {x : Call} (h : x.Ok) : x.n < x.target ↔ x.got ≠ [] := by
  rw [ne_eq, ← List.length_eq_zero_iff]
  have := h.1
  omega

theorem readRound_eof {s : Sys ι} {p : ι} {x : Call} (hok : x.Ok) (hn : 0 < x.n) (hne : s.cons.r ≠ s.cons.w)
    (hch : cell s.cons s.cons.r = C 'D') :
    (readRound s p x).pc p = .back x x.got.length ∧
      (readRound s p x).taken = if x.got = [] then s.taken ++ [C 'D'] else s.taken := by
  unfold readRound
  simp only [if_pos hn, if_neg hne, if_pos hch, hok.fresh_iff, ← hok.1]
  by_cases hgot : x.got = []
  · rw [if_neg (not_not_intro hgot), if_pos hgot]
    exact ⟨Function.update_self .., by rw [← hch]; rfl⟩
  · rw [if_pos hgot, if_neg hgot]
    exact ⟨Function.update_self .., rfl⟩

theorem pc_return_ (s : Sys ι) (p : ι) (x : Call) : (s.return_ p x).pc p = .back x (x.target - x.n) :=
  Function.update_self ..

theorem readRound_returns {s : Sys ι} {p : ι} {x y : Call} {ret : Int} (hok : x.Ok)
    (hback : (readRound s p x).pc p = .back y ret) : Returns s (readRound s p x) p x y ret := by
  by_cases hn : 0 < x.n
  · by_cases hne : s.cons.r = s.cons.w
    · -- nothing to read: the call sleeps, or has been killed
      have heq : readRound s p x =
          if s.killed p then (s.goto p (.back x (-1))).release else (s.goto p (.asleep x)).release := by
        rw [readRound, if_pos hn, if_pos hne]
      rw [heq] at hback ⊢
      split at hback
      · rename_i hk
        have hpc := pc_goto s p (.back x (-1))
        cases hpc.symm.trans hback
        rw [if_pos hk]
        exact .killed hk hne rfl rfl
      · have hpc := pc_goto s p (.asleep x)
        cases hpc.symm.trans hback
    · by_cases hch : cell s.cons s.cons.r = C 'D'
      · obtain ⟨hpc, htaken⟩ := readRound_eof (p := p) hok hn hne hch
        rw [hpc] at hback
        cases hback
        exact .eof rfl hne hch htaken
      · have heq : readRound s p x =
            if cell s.cons s.cons.r = NL then s.take.return_ p (x.deliver (cell s.cons s.cons.r))
            else s.take.goto p (.loop (x.deliver (cell s.cons s.cons.r))) := by
          rw [readRound, if_pos hn, if_neg hne]
          simp only [if_neg hch]
        rw [heq] at hback ⊢
        split at hback
        · rename_i hnl
          rw [if_pos hnl]
          rw [pc_return_] at hback
          cases hback
          rw [(hok.deliver hn _).1, hnl]
          exact .line rfl (by rw [← hnl]; rfl)
        · rw [pc_goto] at hback
          cases hback
  · have heq : readRound s p x = s.return_ p x := by rw [readRound, if_neg hn]
    rw [heq, pc_return_] at hback
    cases hback
    obtain ⟨hlen, hcase⟩ := hok
    rw [heq, hlen]
    refine .enough rfl ?_ rfl
    rcases hcase with h0 | h0
    · omega
    · rw [h0] at hlen ⊢
      simp only [List.length_nil] at hlen ⊢
      omega

/-- The console is a line editor: what was consumed is a prefix of what the reference editor has committed, the buffer
    holds the rest, and a call returns for one of the reasons of `Returns`. -/
theorem console_lines {s : Sys ι} (h : Reached s) :
    (s.cons.w - s.cons.r ≤ s.cons.e - s.cons.r ∧ s.cons.e - s.cons.r ≤ INPUT_BUF_SIZE.toUInt32) ∧
    s.taken <+: s.editor.out ∧
    between s.cons s.cons.r s.cons.w = s.editor.out.drop s.taken.length ∧
    between s.cons s.cons.w s.cons.e = s.editor.line ∧
    (∀ t, Later s t → s.editor.out <+: t.editor.out ∧ s.taken <+: t.taken) ∧
    (∀ p x t y ret, s.pc p = .loop x → step s (.run p) = .ok t → t.pc p = .back y ret → Returns s t p x y ret) ∧
    (s.cons.r ≠ s.cons.w → cell s.cons s.cons.r = C 'D' → ∀ t p x u, Later s t → t.taken = s.taken →
      t.pc p = .loop x → x.got = [] → 0 < x.n → step t (.run p) = .ok u →
      u.pc p = .back x 0 ∧ u.taken = s.taken ++ [C 'D']) := by
  have hi := h.inv
  refine ⟨⟨?_, ?_⟩, hi.holds.fifo, hi.holds.between_read, hi.holds.between_edit, fun t ht => ht.grows, ?_, ?_⟩
  · rw [UInt32.le_iff_toNat_le, hi.holds.unread, hi.holds.used, List.length_append]
    omega
  · rw [UInt32.le_iff_toNat_le, hi.holds.used, List.length_append]
    exact Nat.sub_le_iff_le_add'.mpr hi.holds.room
  · intro p x t y ret hx hs hback
    simp only [step, hx] at hs
    cases hs
    exact readRound_returns (hi.calls p x (by rw [hx]; rfl)) hback
  · intro hne hch t p x u ht htaken hx hgot hn hs
    simp only [step, hx] at hs
    cases hs
    obtain ⟨hne', hch'⟩ := ht.next hi hne htaken
    obtain ⟨hpc, htaken'⟩ := readRound_eof (p := p) ((ht.inv hi).calls p x (by rw [hx]; rfl)) hn hne' (hch'.trans hch)
    rw [if_pos hgot, htaken] at htaken'
    rw [hgot] at hpc
    exact ⟨hpc, htaken'⟩

end

def quiet : Sys Unit where
  cons := { buf := fun _ => 0, r := 0, w := 0, e := 0 }
  lock := none
  killed _ := false
  pc _ := .user
  taken := []
  editor := ⟨[], []⟩

def typing : List (Action Unit) :=
  [.call () 10, .run (), .run (), .intr 97, .intr 120, .intr 8, .intr 10, .intr 4, .wake (), .run (), .run ()]

theorem console_lines_typing : ∃ s : Sys Unit, (s.taken = [97] ∧ s.editor.out = [97, 10, 4]) ∧
    s.taken <+: s.editor.out ∧ between s.cons s.cons.r s.cons.w = s.editor.out.drop s.taken.length := by
  have hrun : (run step (fun _ _ => true) quiet typing).any
      (fun s => decide (s.taken = [97] ∧ s.editor.out = [97, 10, 4])) = true := by decide +kernel
  obtain ⟨s, hs, hlast⟩ := (Option.any_eq_true _ _).mp hrun
  have hreach : Reached s :=
    Reach.of_run (fun _ _ _ => trivial) typing (.init ⟨rfl, rfl, rfl, rfl, fun _ => rfl, rfl, rfl⟩) hs
  obtain ⟨-, hfifo, hrest, -⟩ := console_lines hreach
  exact ⟨s, of_decide_eq_true hlast, hfifo, hrest⟩

end Xv6.Console
