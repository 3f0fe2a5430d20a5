import Mathlib.Algebra.Order.Ring.Int
import Mathlib.Data.List.Infix
import Mathlib.Data.Nat.ModEq

/-! Ring buffers whose two counters run free and wrap, seen through all that was ever put in and taken out. -/

namespace Xv6.Lib

variable {α : Type} {cap M : Nat} [NeZero cap]

/-- The cells `data` and the counters `r` and `w` hold what is in `ins` and not yet in `outs`. -/
structure Ring (M : Nat) (data : Fin cap → α) (r w : Nat) (ins outs : List α) : Prop where
  read : r = outs.length % M
  write : w = ins.length % M
  fifo : outs <+: ins
  room : ins.length ≤ outs.length + cap
  cells : ∀ k (h : k < ins.length), outs.length ≤ k → data (Fin.ofNat cap k) = ins[k]

namespace Ring
variable {data : Fin cap → α} {r w : Nat} {ins outs : List α}

theorem empty (data : Fin cap → α) : Ring M data 0 0 [] [] where
  read := by simp
  write := by simp
  fifo := List.prefix_rfl
  room := by simp
  cells k h := absurd h (Nat.not_lt_zero k)

theorem eq_of_mod_eq {a b : Nat} (hle : a ≤ b) (hlt : b < a + M) (h : a % M = b % M) : a = b := by
  have hdvd : M ∣ b - a := (Nat.modEq_iff_dvd' hle).mp h
  have := Nat.eq_zero_of_dvd_of_lt hdvd (by omega)
  omega

theorem empty_iff (h : Ring M data r w ins outs) (hM : cap < M) : r = w ↔ outs.length = ins.length := by
  rw [h.read, h.write]
  exact ⟨eq_of_mod_eq h.fifo.length_le (by have := h.room; omega), fun he => by rw [he]⟩

theorem full_iff (h : Ring M data r w ins outs) (hM : cap < M) :
    w = (r + cap) % M ↔ ins.length = outs.length + cap := by
  rw [h.read, h.write, Nat.mod_add_mod]
  exact ⟨eq_of_mod_eq h.room (by have := h.fifo.length_le; omega), fun he => by rw [he]⟩

theorem unread (h : Ring M data r w ins outs) (hM : cap < M) :
    (w + (M - r)) % M = ins.length - outs.length := by
  have hr : r < M := h.read ▸ Nat.mod_lt _ (by omega)
  have hle := h.fifo.length_le
  have hroom := h.room
  rw [← Nat.mod_eq_of_lt (show ins.length - outs.length < M by omega)]
  -- both sides give `w` when `r` is added
  refine Nat.ModEq.add_right_cancel' r ?_
  rw [show w + (M - r) + r = w + M by omega, h.read, h.write]
  unfold Nat.ModEq
  rw [Nat.add_mod_right, Nat.mod_mod, Nat.add_mod_mod]
  congr 1
  omega

theorem ofNat_mod (hdvd : cap ∣ M) (k : Nat) : Fin.ofNat cap (k % M) = Fin.ofNat cap k :=
  Fin.ext (Nat.mod_mod_of_dvd k hdvd)

theorem poke (h : Ring M data r w ins outs) (hM : cap < M) (hdvd : cap ∣ M) (hfull : w ≠ (r + cap) % M) (x : α) :
    Ring M (Function.update data (Fin.ofNat cap w) x) r w ins outs := by
  have hroom : ins.length < outs.length + cap :=
    lt_of_le_of_ne h.room fun he => hfull ((h.full_iff hM).mpr he)
  refine ⟨h.read, h.write, h.fifo, h.room, fun k hk hle => ?_⟩
  -- an unread cell lies less than a round behind the new one
  have hne : Fin.ofNat cap k ≠ Fin.ofNat cap w := fun he => by
    rw [h.write, ofNat_mod hdvd] at he
    exact absurd (eq_of_mod_eq hk.le (by omega) (Fin.ext_iff.mp he)) hk.ne
  rw [Function.update_of_ne hne, h.cells k hk hle]

theorem advance (h : Ring M data r w ins outs) (hM : cap < M) (hdvd : cap ∣ M) (hfull : w ≠ (r + cap) % M) :
    Ring M data r ((w + 1) % M) (ins ++ [data (Fin.ofNat cap w)]) outs := by
  have hroom : ins.length < outs.length + cap :=
    lt_of_le_of_ne h.room fun he => hfull ((h.full_iff hM).mpr he)
  refine ⟨h.read, ?_, h.fifo.trans (List.prefix_append ..), ?_, fun k hk hle => ?_⟩
  · rw [h.write, Nat.mod_add_mod, List.length_append, List.length_singleton]
  · rw [List.length_append, List.length_singleton]; omega
  · rw [List.length_append, List.length_singleton] at hk
    rcases Nat.lt_succ_iff_lt_or_eq.mp hk with hlt | rfl
    · rw [h.cells k hlt hle, List.getElem_append_left hlt]
    · rw [List.getElem_concat_length rfl, h.write, ofNat_mod hdvd]

theorem push (h : Ring M data r w ins outs) (hM : cap < M) (hdvd : cap ∣ M) (hfull : w ≠ (r + cap) % M) (x : α) :
    Ring M (Function.update data (Fin.ofNat cap w) x) r ((w + 1) % M) (ins ++ [x]) outs := by
  have hadv := (h.poke hM hdvd hfull x).advance hM hdvd hfull
  rwa [Function.update_self] at hadv

theorem drop_eq_cons (h : Ring M data r w ins outs) (hM : cap < M) (hdvd : cap ∣ M) (hempty : r ≠ w) :
    ins.drop outs.length = data (Fin.ofNat cap r) :: ins.drop (outs.length + 1) := by
  have hlt : outs.length < ins.length :=
    lt_of_le_of_ne h.fifo.length_le fun he => hempty ((h.empty_iff hM).mpr he)
  rw [h.read, ofNat_mod hdvd, h.cells _ hlt le_rfl]
  exact List.drop_eq_getElem_cons hlt

theorem pop (h : Ring M data r w ins outs) (hM : cap < M) (hdvd : cap ∣ M) (hempty : r ≠ w) :
    Ring M data ((r + 1) % M) w ins (outs ++ [data (Fin.ofNat cap r)]) := by
  have hlt : outs.length < ins.length :=
    lt_of_le_of_ne h.fifo.length_le fun he => hempty ((h.empty_iff hM).mpr he)
  have hnext : data (Fin.ofNat cap r) = ins[outs.length] := by
    rw [h.read, ofNat_mod hdvd, h.cells _ hlt le_rfl]
  refine ⟨?_, h.write, ?_, ?_, fun k hk hle => h.cells k hk ?_⟩
  · rw [h.read, Nat.mod_add_mod, List.length_append, List.length_singleton]
  · rw [hnext]
    exact List.concat_get_prefix h.fifo hlt
  · rw [List.length_append, List.length_singleton]; have := h.room; omega
  · rw [List.length_append, List.length_singleton] at hle; omega

theorem retract {x : α} (h : Ring M data r w (ins ++ [x]) outs) (hM : 0 < M) (hle : outs.length ≤ ins.length) :
    Ring M data r ((w + (M - 1)) % M) ins outs := by
  have hroom := h.room
  rw [List.length_append, List.length_singleton] at hroom
  refine ⟨h.read, ?_, ?_, by omega, fun k hk hle => ?_⟩
  · rw [h.write, Nat.mod_add_mod, List.length_append, List.length_singleton,
      show ins.length + 1 + (M - 1) = ins.length + M by omega, Nat.add_mod_right]
  · exact List.prefix_of_prefix_length_le h.fifo (List.prefix_append ..) hle
  · rw [h.cells k (by rw [List.length_append]; omega) hle, List.getElem_append_left hk]

end Ring

end Xv6.Lib
