import Mathlib.Data.List.Dedup
import Xv6.Param

/-! The in-memory log of `kernel/log.c`, and the slot search and absorption of `log_write`. -/

namespace Xv6

/-- `struct logheader`: the number of logged blocks and their block numbers. Entries from `n` on are
    stale. -/
structure LogHeader where
  n : Nat
  block : Nat → Nat

namespace LogHeader

def blocks (lh : LogHeader) : List Nat := (List.range lh.n).map lh.block

/-- `for (i = 0; i < log.lh.n; i++) if (log.lh.block[i] == blockno) break;` -/
def slotFrom (lh : LogHeader) (blockno : Nat) : Nat → Nat → Nat
  | i, 0 => i
  | i, fuel + 1 => if lh.block i = blockno then i else slotFrom lh blockno (i + 1) fuel

/-- The slot that `log_write` stores `blockno` in: its own if it is logged, else `n`. -/
def slot (lh : LogHeader) (blockno : Nat) : Nat := lh.slotFrom blockno 0 lh.n

/-- The header after `log_write` of `blockno`, with log absorption. -/
def log (lh : LogHeader) (blockno : Nat) : LogHeader where
  n := if lh.slot blockno = lh.n then lh.n + 1 else lh.n
  block := fun i => if i = lh.slot blockno then blockno else lh.block i

@[simp] theorem length_blocks (lh : LogHeader) : lh.blocks.length = lh.n := by simp [blocks]

theorem mem_blocks {lh : LogHeader} {b : Nat} : b ∈ lh.blocks ↔ ∃ i < lh.n, lh.block i = b := by
  simp [blocks]

theorem slotFrom_spec (lh : LogHeader) (blockno : Nat) (fuel i : Nat) :
    (lh.slotFrom blockno i fuel = i + fuel ∧ ∀ j, i ≤ j → j < i + fuel → lh.block j ≠ blockno) ∨
    (lh.slotFrom blockno i fuel < i + fuel ∧ lh.block (lh.slotFrom blockno i fuel) = blockno) := by
  induction fuel generalizing i with
  | zero => exact Or.inl ⟨rfl, fun j h1 h2 => by omega⟩
  | succ fuel ih =>
    by_cases hi : lh.block i = blockno
    · right
      simp only [slotFrom, hi, ↓reduceIte]
      exact ⟨by omega, trivial⟩
    · simp only [slotFrom, hi, ↓reduceIte]
      rcases ih (i + 1) with ⟨h1, h2⟩ | ⟨h1, h2⟩
      · refine Or.inl ⟨by omega, fun j hj1 hj2 => ?_⟩
        by_cases hij : j = i
        · exact hij ▸ hi
        · exact h2 j (by omega) (by omega)
      · exact Or.inr ⟨by omega, h2⟩

theorem slot_of_not_mem {lh : LogHeader} {b : Nat} (h : b ∉ lh.blocks) : lh.slot b = lh.n := by
  rcases lh.slotFrom_spec b lh.n 0 with ⟨h1, -⟩ | ⟨h1, h2⟩
  · simpa [slot] using h1
  · exact absurd (mem_blocks.mpr ⟨_, by simpa using h1, h2⟩) h

theorem slot_of_mem {lh : LogHeader} {b : Nat} (h : b ∈ lh.blocks) :
    lh.slot b < lh.n ∧ lh.block (lh.slot b) = b := by
  rcases lh.slotFrom_spec b lh.n 0 with ⟨-, h2⟩ | ⟨h1, h2⟩
  · obtain ⟨i, hi, hb⟩ := mem_blocks.mp h
    exact absurd hb (h2 i (by omega) (by omega))
  · exact ⟨by simpa [slot] using h1, h2⟩

theorem blocks_log_of_mem {lh : LogHeader} {b : Nat} (h : b ∈ lh.blocks) : (lh.log b).blocks = lh.blocks := by
  obtain ⟨hlt, hb⟩ := slot_of_mem h
  have hn : (lh.log b).n = lh.n := by simp [log, Nat.ne_of_lt hlt]
  unfold blocks
  rw [hn]
  apply List.map_congr_left
  intro i _
  by_cases hi : i = lh.slot b
  · simp [log, hi, hb]
  · simp [log, hi]

theorem blocks_log_of_not_mem {lh : LogHeader} {b : Nat} (h : b ∉ lh.blocks) :
    (lh.log b).blocks = lh.blocks ++ [b] := by
  have hs := slot_of_not_mem h
  have hn : (lh.log b).n = lh.n + 1 := by simp [log, hs]
  unfold blocks
  rw [hn, List.range_succ, List.map_append]
  congr 1
  · apply List.map_congr_left
    intro i hi
    have hi' : i ≠ lh.n := Nat.ne_of_lt (List.mem_range.mp hi)
    simp [log, hs, hi']
  · simp [log, hs]

theorem nodup_blocks_log {lh : LogHeader} (b : Nat) (h : lh.blocks.Nodup) : (lh.log b).blocks.Nodup := by
  by_cases hb : b ∈ lh.blocks
  · rw [blocks_log_of_mem hb]; exact h
  · rw [blocks_log_of_not_mem hb]
    exact List.nodup_append.mpr ⟨h, List.nodup_singleton b, fun x hx y hy hxy => by
      rw [List.mem_singleton] at hy
      exact hb (hy ▸ hxy ▸ hx)⟩

theorem mem_blocks_log {lh : LogHeader} {b x : Nat} : x ∈ (lh.log b).blocks ↔ x ∈ lh.blocks ∨ x = b := by
  by_cases hb : b ∈ lh.blocks
  · rw [blocks_log_of_mem hb]
    exact ⟨Or.inl, fun h => h.elim id fun h => h ▸ hb⟩
  · rw [blocks_log_of_not_mem hb, List.mem_append, List.mem_singleton]

end LogHeader

/-- `struct log`, less its spinlock: a critical section under `log.lock` is one step of the model. -/
structure Log where
  start : Nat
  size : Nat
  /-- How many file-system calls are executing. -/
  outstanding : Int
  /-- In `commit()`, please wait. -/
  committing : Bool
  lh : LogHeader

end Xv6
