import Mathlib.Data.BitVec
import Xv6.Riscv

/-! The assembly of `kernel/trampoline.S`, `kernel/kernelvec.S` and `kernel/swtch.S`, over words of 64 bits. -/

namespace Xv6.Trap

inductive Reg where
  | ra | sp | gp | tp
  | t0 | t1 | t2 | t3 | t4 | t5 | t6
  | s0 | s1 | s2 | s3 | s4 | s5 | s6 | s7 | s8 | s9 | s10 | s11
  | a0 | a1 | a2 | a3 | a4 | a5 | a6 | a7
  deriving DecidableEq, Repr

abbrev Word := BitVec 64

abbrev Regs := Reg → Word

def off (n : Nat) : Word := BitVec.ofNat 64 n

inductive Instr where
  | sd (r : Reg) (n : Nat) (base : Reg)
  | ld (r : Reg) (n : Nat) (base : Reg)
  | addi (rd rs : Reg) (imm : Word)
  | li (rd : Reg) (v : Nat)
  -- `csrw sscratch, r` and `csrr r, sscratch`
  | csrw (r : Reg)
  | csrr (r : Reg)
  deriving DecidableEq, Repr

structure Machine where
  regs : Regs
  sscratch : Word
  mem : Word → Word

def exec (m : Machine) : Instr → Machine
  | .sd r n base => { m with mem := Function.update m.mem (m.regs base + off n) (m.regs r) }
  | .ld r n base => { m with regs := Function.update m.regs r (m.mem (m.regs base + off n)) }
  | .addi rd rs imm => { m with regs := Function.update m.regs rd (m.regs rs + imm) }
  | .li rd v => { m with regs := Function.update m.regs rd (off v) }
  | .csrw r => { m with sscratch := m.regs r }
  | .csrr r => { m with regs := Function.update m.regs r m.sscratch }

def run (code : List Instr) (m : Machine) : Machine := code.foldl exec m

section
open Reg Instr

/-- `uservec`, up to the loads that precede the change of page table. -/
def uservec : List Instr :=
  [csrw a0, li a0 TRAPFRAME,
   sd ra 40 a0, sd sp 48 a0, sd gp 56 a0, sd tp 64 a0, sd t0 72 a0, sd t1 80 a0, sd t2 88 a0, sd s0 96 a0,
   sd s1 104 a0, sd a1 120 a0, sd a2 128 a0, sd a3 136 a0, sd a4 144 a0, sd a5 152 a0, sd a6 160 a0, sd a7 168 a0,
   sd s2 176 a0, sd s3 184 a0, sd s4 192 a0, sd s5 200 a0, sd s6 208 a0, sd s7 216 a0, sd s8 224 a0, sd s9 232 a0,
   sd s10 240 a0, sd s11 248 a0, sd t3 256 a0, sd t4 264 a0, sd t5 272 a0, sd t6 280 a0,
   csrr t0, sd t0 112 a0,
   ld sp 8 a0, ld tp 32 a0, ld t0 16 a0, ld t1 0 a0]

/-- `userret`, behind the change of page table. -/
def userret : List Instr :=
  [li a0 TRAPFRAME,
   ld ra 40 a0, ld sp 48 a0, ld gp 56 a0, ld tp 64 a0, ld t0 72 a0, ld t1 80 a0, ld t2 88 a0, ld s0 96 a0,
   ld s1 104 a0, ld a1 120 a0, ld a2 128 a0, ld a3 136 a0, ld a4 144 a0, ld a5 152 a0, ld a6 160 a0, ld a7 168 a0,
   ld s2 176 a0, ld s3 184 a0, ld s4 192 a0, ld s5 200 a0, ld s6 208 a0, ld s7 216 a0, ld s8 224 a0, ld s9 232 a0,
   ld s10 240 a0, ld s11 248 a0, ld t3 256 a0, ld t4 264 a0, ld t5 272 a0, ld t6 280 a0,
   ld a0 112 a0]

/-- `kernelvec` before and after `call kerneltrap`. -/
def kernelvecSave : List Instr :=
  [addi sp sp (-256),
   sd ra 0 sp, sd sp 8 sp, sd gp 16 sp, sd tp 24 sp, sd t0 32 sp, sd t1 40 sp, sd t2 48 sp, sd a0 72 sp, sd a1 80 sp,
   sd a2 88 sp, sd a3 96 sp, sd a4 104 sp, sd a5 112 sp, sd a6 120 sp, sd a7 128 sp, sd t3 216 sp, sd t4 224 sp,
   sd t5 232 sp, sd t6 240 sp]

def kernelvecRestore : List Instr :=
  [ld ra 0 sp, ld sp 8 sp, ld gp 16 sp, ld t0 32 sp, ld t1 40 sp, ld t2 48 sp, ld a0 72 sp, ld a1 80 sp,
   ld a2 88 sp, ld a3 96 sp, ld a4 104 sp, ld a5 112 sp, ld a6 120 sp, ld a7 128 sp, ld t3 216 sp, ld t4 224 sp,
   ld t5 232 sp, ld t6 240 sp,
   addi sp sp 256]

def swtch : List Instr :=
  [sd ra 0 a0, sd sp 8 a0, sd s0 16 a0, sd s1 24 a0, sd s2 32 a0, sd s3 40 a0, sd s4 48 a0, sd s5 56 a0, sd s6 64 a0,
   sd s7 72 a0, sd s8 80 a0, sd s9 88 a0, sd s10 96 a0, sd s11 104 a0,
   ld ra 0 a1, ld sp 8 a1, ld s0 16 a1, ld s1 24 a1, ld s2 32 a1, ld s3 40 a1, ld s4 48 a1, ld s5 56 a1, ld s6 64 a1,
   ld s7 72 a1, ld s8 80 a1, ld s9 88 a1, ld s10 96 a1, ld s11 104 a1]

inductive Field where
  | kernelSatp | kernelSp | kernelTrap | epc | kernelHartid
  | reg (r : Reg)
  deriving DecidableEq, Repr

def trapframe : List Field :=
  [.kernelSatp, .kernelSp, .kernelTrap, .epc, .kernelHartid] ++
    [ra, sp, gp, tp, t0, t1, t2, s0, s1, a0, a1, a2, a3, a4, a5, a6, a7, s2, s3, s4, s5, s6, s7, s8, s9, s10, s11,
     t3, t4, t5, t6].map Field.reg

def context : List Reg := [ra, sp, s0, s1, s2, s3, s4, s5, s6, s7, s8, s9, s10, s11]

end

/-- The offset of a field: all of them are `uint64`. -/
def Field.offset (f : Field) : Nat := 8 * trapframe.idxOf f

def contextOffset (r : Reg) : Nat := 8 * context.idxOf r

def Field.addr (f : Field) : Word := off TRAPFRAME + off f.offset

def saves (base : Reg) (l : List (Reg × Nat)) : List Instr := l.map fun x => .sd x.1 x.2 base

def loads (base : Reg) (l : List (Reg × Nat)) : List Instr := l.map fun x => .ld x.1 x.2 base

theorem run_append (c d : List Instr) (m : Machine) : run (c ++ d) m = run d (run c m) := List.foldl_append ..

theorem run_cons (i : Instr) (c : List Instr) (m : Machine) : run (i :: c) m = run c (exec m i) := rfl

theorem run_one (i : Instr) (m : Machine) : run [i] m = exec m i := rfl

section
variable (m : Machine)

theorem ld_self (r : Reg) (n : Nat) (base : Reg) : (exec m (.ld r n base)).regs r = m.mem (m.regs base + off n) := by
  simp only [exec, Function.update_self]

theorem ld_ne {r q : Reg} (n : Nat) (base : Reg) (h : q ≠ r) : (exec m (.ld r n base)).regs q = m.regs q := by
  simp only [exec, Function.update_of_ne h]

theorem li_self (r : Reg) (v : Nat) : (exec m (.li r v)).regs r = off v := by
  simp only [exec, Function.update_self]

theorem li_ne {r q : Reg} (v : Nat) (h : q ≠ r) : (exec m (.li r v)).regs q = m.regs q := by
  simp only [exec, Function.update_of_ne h]

theorem addi_self (rd rs : Reg) (imm : Word) : (exec m (.addi rd rs imm)).regs rd = m.regs rs + imm := by
  simp only [exec, Function.update_self]

theorem addi_ne {rd q : Reg} (rs : Reg) (imm : Word) (h : q ≠ rd) : (exec m (.addi rd rs imm)).regs q = m.regs q := by
  simp only [exec, Function.update_of_ne h]

end

theorem off_inj {n k : Nat} (hn : n < 2 ^ 64) (hk : k < 2 ^ 64) (h : off n = off k) : n = k := by
  have hmod : n % 2 ^ 64 = k % 2 ^ 64 := by simpa [off] using congrArg BitVec.toNat h
  rwa [Nat.mod_eq_of_lt hn, Nat.mod_eq_of_lt hk] at hmod

theorem add_off_ne {b : Word} {n k : Nat} (hn : n < 2 ^ 64) (hk : k < 2 ^ 64) (h : n ≠ k) : b + off n ≠ b + off k :=
  fun he => h (off_inj hn hk (add_left_cancel he))

section
variable (base : Reg) (l : List (Reg × Nat)) (m : Machine)

theorem run_saves_regs : (run (saves base l) m).regs = m.regs ∧ (run (saves base l) m).sscratch = m.sscratch := by
  induction l generalizing m with
  | nil => exact ⟨rfl, rfl⟩
  | cons x l ih => exact ih (exec m (.sd x.1 x.2 base))

theorem run_saves_other {a : Word} (h : ∀ x ∈ l, a ≠ m.regs base + off x.2) :
    (run (saves base l) m).mem a = m.mem a := by
  induction l generalizing m with
  | nil => rfl
  | cons x l ih =>
    have htail := ih (exec m (.sd x.1 x.2 base)) fun y hy => h y (List.mem_cons_of_mem _ hy)
    exact htail.trans (Function.update_of_ne (h x List.mem_cons_self) ..)

theorem run_saves {r : Reg} {n : Nat} (hx : (r, n) ∈ l) (hnodup : (l.map Prod.snd).Nodup)
    (hsmall : ∀ x ∈ l, x.2 < 2 ^ 64) : (run (saves base l) m).mem (m.regs base + off n) = m.regs r := by
  induction l generalizing m with
  | nil => cases hx
  | cons x l ih =>
    obtain ⟨hnot, hnodup⟩ := List.nodup_cons.mp hnodup
    have hsmall' : ∀ y ∈ l, y.2 < 2 ^ 64 := fun y hy => hsmall y (List.mem_cons_of_mem _ hy)
    rcases List.mem_cons.mp hx with rfl | hx
    · -- the stores that follow go elsewhere
      have hkeep := run_saves_other base l (exec m (.sd r n base)) (a := m.regs base + off n) fun y hy =>
        add_off_ne (hsmall _ List.mem_cons_self) (hsmall' y hy) fun he => hnot (List.mem_map.mpr ⟨y, hy, he.symm⟩)
      exact hkeep.trans (Function.update_self ..)
    · exact ih (exec m (.sd x.1 x.2 base)) hx hnodup hsmall'

theorem run_loads_mem : (run (loads base l) m).mem = m.mem ∧ (run (loads base l) m).sscratch = m.sscratch := by
  induction l generalizing m with
  | nil => exact ⟨rfl, rfl⟩
  | cons x l ih => exact ih (exec m (.ld x.1 x.2 base))

theorem run_loads_other {r : Reg} (h : r ∉ l.map Prod.fst) : (run (loads base l) m).regs r = m.regs r := by
  induction l generalizing m with
  | nil => rfl
  | cons x l ih =>
    rw [List.map_cons, List.mem_cons, not_or] at h
    exact (ih (exec m (.ld x.1 x.2 base)) h.2).trans (Function.update_of_ne h.1 ..)

theorem run_loads {r : Reg} {n : Nat} (hx : (r, n) ∈ l) (hnodup : (l.map Prod.fst).Nodup)
    (hbase : ∀ k, (base, k) ∈ l → m.mem (m.regs base + off k) = m.regs base) :
    (run (loads base l) m).regs r = m.mem (m.regs base + off n) := by
  induction l generalizing m with
  | nil => cases hx
  | cons x l ih =>
    obtain ⟨hnot, hnodup⟩ := List.nodup_cons.mp hnodup
    have hkeep : (exec m (.ld x.1 x.2 base)).regs base = m.regs base := by
      by_cases hb : x.1 = base
      · have hval := hbase x.2 (by rw [← hb]; exact List.mem_cons_self)
        simp only [exec, hb, Function.update_self, hval]
      · exact Function.update_of_ne (Ne.symm hb) ..
    rcases List.mem_cons.mp hx with rfl | hx
    · exact (run_loads_other base l (exec m (.ld r n base)) hnot).trans (Function.update_self ..)
    · have htail := ih (exec m (.ld x.1 x.2 base)) hx hnodup fun k hk => by
        rw [hkeep]
        exact hbase k (List.mem_cons_of_mem _ hk)
      rw [hkeep] at htail
      exact htail

end

section
open Reg

/-- What `uservec` stores by way of `a0`, and `userret` loads. -/
def userSlots : List (Reg × Nat) :=
  [(ra, 40), (sp, 48), (gp, 56), (tp, 64), (t0, 72), (t1, 80), (t2, 88), (s0, 96), (s1, 104), (a1, 120), (a2, 128),
   (a3, 136), (a4, 144), (a5, 152), (a6, 160), (a7, 168), (s2, 176), (s3, 184), (s4, 192), (s5, 200), (s6, 208),
   (s7, 216), (s8, 224), (s9, 232), (s10, 240), (s11, 248), (t3, 256), (t4, 264), (t5, 272), (t6, 280)]

def switchSlots : List (Reg × Nat) :=
  [(ra, 0), (sp, 8), (s0, 16), (s1, 24), (s2, 32), (s3, 40), (s4, 48), (s5, 56), (s6, 64), (s7, 72), (s8, 80), (s9, 88),
   (s10, 96), (s11, 104)]

def kernelSlots : List (Reg × Nat) :=
  [(ra, 0), (sp, 8), (gp, 16), (t0, 32), (t1, 40), (t2, 48), (a0, 72), (a1, 80), (a2, 88), (a3, 96), (a4, 104), (a5, 112),
   (a6, 120), (a7, 128), (t3, 216), (t4, 224), (t5, 232), (t6, 240)]

def calleeSaved : List Reg := [s0, s1, s2, s3, s4, s5, s6, s7, s8, s9, s10, s11]

end

theorem uservec_eq : uservec = [.csrw .a0, .li .a0 TRAPFRAME] ++ saves .a0 userSlots ++ [.csrr .t0, .sd .t0 112 .a0] ++
    loads .a0 [(.sp, 8), (.tp, 32), (.t0, 16), (.t1, 0)] := rfl

theorem userret_eq : userret = [.li .a0 TRAPFRAME] ++ loads .a0 userSlots ++ [.ld .a0 112 .a0] := rfl

theorem swtch_eq : swtch = saves .a0 switchSlots ++ loads .a1 switchSlots := rfl

theorem kernelvecSave_eq : kernelvecSave = .addi .sp .sp (-256) ::
    saves .sp (kernelSlots.take 3 ++ (.tp, 24) :: kernelSlots.drop 3) := rfl

theorem kernelvecRestore_eq : kernelvecRestore = loads .sp kernelSlots ++ [.addi .sp .sp 256] := rfl

theorem userSlots_reg (r : Reg) (h : r ≠ .a0) : (r, (Field.reg r).offset) ∈ userSlots := by
  cases r <;> first | exact absurd rfl h | decide

theorem switchSlots_reg : ∀ r ∈ context, (r, contextOffset r) ∈ switchSlots := by decide

theorem offset_lt (f : Field) : f.offset < 2 ^ 64 := by
  have : trapframe.idxOf f ≤ trapframe.length := List.idxOf_le_length
  have hlen : trapframe.length = 36 := rfl
  unfold Field.offset
  omega

theorem mem_trapframe (f : Field) : f ∈ trapframe := by
  cases f with
  | reg r => cases r <;> decide
  | _ => decide

theorem offset_inj {f g : Field} (h : f.offset = g.offset) : f = g := by
  unfold Field.offset at h
  exact (List.idxOf_inj (mem_trapframe f)).mp (by omega)

theorem addr_ne {f g : Field} (h : f ≠ g) : f.addr ≠ g.addr :=
  add_off_ne (offset_lt f) (offset_lt g) fun he => h (offset_inj he)

theorem uservec_spec (m : Machine) (r : Reg) : (run uservec m).mem (Field.reg r).addr = m.regs r := by
  rw [uservec_eq, run_append, run_append, run_append]
  rw [(run_loads_mem ..).1]
  generalize hm1 : run [.csrw .a0, .li .a0 TRAPFRAME] m = m1
  have hbase : m1.regs .a0 = off TRAPFRAME := by rw [← hm1]; exact li_self ..
  have hscr : m1.sscratch = m.regs .a0 := by rw [← hm1]; rfl
  have hregs : ∀ q, q ≠ .a0 → m1.regs q = m.regs q := fun q hq => by
    rw [← hm1]
    exact li_ne _ _ hq
  obtain ⟨hkeep, hkeep'⟩ := run_saves_regs .a0 userSlots m1
  generalize hm2 : run (saves .a0 userSlots) m1 = m2 at hkeep hkeep' ⊢
  have hlast : (run [.csrr .t0, .sd .t0 112 .a0] m2).mem = Function.update m2.mem (Field.reg .a0).addr (m.regs .a0) := by
    simp only [run_cons, exec, Function.update_self, Function.update_of_ne (show Reg.a0 ≠ .t0 by decide), hkeep, hkeep', hbase, hscr]
    rfl
  rw [hlast]
  by_cases hr : r = .a0
  · rw [hr, Function.update_self]
  · rw [Function.update_of_ne (addr_ne fun he => hr (by cases he; rfl)), ← hregs r hr, ← hm2, Field.addr, ← hbase]
    exact run_saves .a0 userSlots m1 (userSlots_reg r hr) (by decide) (by decide)

theorem userret_spec (m : Machine) (r : Reg) : (run userret m).regs r = m.mem (Field.reg r).addr := by
  rw [userret_eq, run_append, run_append]
  generalize hm1 : run [.li .a0 TRAPFRAME] m = m1
  have hbase : m1.regs .a0 = off TRAPFRAME := by rw [← hm1]; exact li_self ..
  have hmem : m1.mem = m.mem := by rw [← hm1]; rfl
  have hkeep : (run (loads .a0 userSlots) m1).regs .a0 = off TRAPFRAME := by
    rw [run_loads_other .a0 userSlots m1 (by decide), hbase]
  by_cases hr : r = .a0
  · rw [hr, run_one, ld_self, hkeep, (run_loads_mem ..).1, hmem]
    rfl
  · rw [run_one, ld_ne _ _ _ hr]
    rw [run_loads .a0 userSlots m1 (userSlots_reg r hr) (by decide) (fun k hk => ?_), hbase, hmem]
    · rfl
    · exact absurd (List.mem_map_of_mem hk) (show Reg.a0 ∉ userSlots.map Prod.fst by decide)

theorem swtch_regs (m : Machine) {r : Reg} (hr : r ∈ context)
    (hapart : ∀ k l, k < 112 → l < 112 → m.regs .a1 + off k ≠ m.regs .a0 + off l) :
    (run swtch m).regs r = m.mem (m.regs .a1 + off (contextOffset r)) := by
  rw [swtch_eq, run_append]
  have hslots : ∀ x ∈ switchSlots, x.2 < 112 := by decide
  have hslot := switchSlots_reg r hr
  obtain ⟨hkeep, -⟩ := run_saves_regs .a0 switchSlots m
  rw [run_loads .a1 switchSlots _ hslot (by decide) (fun k hk => ?_), hkeep]
  · exact run_saves_other .a0 switchSlots m fun x hx => hapart _ _ (hslots _ hslot) (hslots x hx)
  · exact absurd (List.mem_map_of_mem hk) (show Reg.a1 ∉ switchSlots.map Prod.fst by decide)

theorem swtch_mem (m : Machine) {r : Reg} (hr : r ∈ context) :
    (run swtch m).mem (m.regs .a0 + off (contextOffset r)) = m.regs r := by
  rw [swtch_eq, run_append, (run_loads_mem ..).1]
  exact run_saves .a0 switchSlots m (switchSlots_reg r hr) (by decide) (by decide)

theorem swtch_other (m : Machine) {a : Word} (h : ∀ k, k < 112 → a ≠ m.regs .a0 + off k) :
    (run swtch m).mem a = m.mem a := by
  rw [swtch_eq, run_append, (run_loads_mem ..).1]
  have hslots : ∀ x ∈ switchSlots, x.2 < 112 := by decide
  exact run_saves_other .a0 switchSlots m fun x hx => h x.2 (hslots x hx)

theorem kernelvecSave_mem (m : Machine) {x : Reg × Nat} (hx : x ∈ kernelSlots) :
    (run kernelvecSave m).mem (m.regs .sp + -256 + off x.2) =
      if x.1 = .sp then m.regs .sp + -256 else m.regs x.1 := by
  rw [kernelvecSave_eq, run_cons]
  have hbase : (exec m (.addi .sp .sp (-256))).regs .sp = m.regs .sp + -256 := addi_self ..
  have hx' : x ∈ kernelSlots.take 3 ++ (.tp, 24) :: kernelSlots.drop 3 := by
    revert x
    decide
  rw [← hbase, run_saves .sp _ _ hx' (by decide) (by decide)]
  split
  · rename_i hsp
    rw [hsp]
  · rename_i hsp
    exact addi_ne _ _ _ hsp

theorem kernelvecSave_other (m : Machine) {a : Word} (h : ∀ k, k < 256 → a ≠ m.regs .sp + -256 + off k) :
    (run kernelvecSave m).mem a = m.mem a := by
  rw [kernelvecSave_eq, run_cons]
  have hbase : (exec m (.addi .sp .sp (-256))).regs .sp = m.regs .sp + -256 := addi_self ..
  have hslots : ∀ x ∈ kernelSlots.take 3 ++ (.tp, 24) :: kernelSlots.drop 3, x.2 < 256 := by decide
  refine run_saves_other .sp _ _ fun x hx => ?_
  rw [hbase]
  exact h x.2 (hslots x hx)

theorem kernelvecRestore_spec (m : Machine) (old : Regs) (hsp : m.regs .sp = old .sp + -256)
    (hsaved : ∀ r ∈ calleeSaved, m.regs r = old r)
    (hframe : ∀ x ∈ kernelSlots, m.mem (old .sp + -256 + off x.2) = if x.1 = .sp then old .sp + -256 else old x.1)
    {r : Reg} (hr : r ≠ .tp) : (run kernelvecRestore m).regs r = old r := by
  rw [kernelvecRestore_eq, run_append]
  have hbase : ∀ k, (.sp, k) ∈ kernelSlots → m.mem (m.regs .sp + off k) = m.regs .sp := fun k hk => by
    rw [hsp]
    exact (hframe _ hk).trans (if_pos rfl)
  have hload : ∀ x ∈ kernelSlots, (run (loads .sp kernelSlots) m).regs x.1 = if x.1 = .sp then old .sp + -256 else old x.1 :=
    fun x hx => by
    rw [run_loads .sp kernelSlots m hx (by decide) hbase, hsp]
    exact hframe x hx
  by_cases hrsp : r = .sp
  · rw [hrsp, run_one, addi_self]
    rw [show (run (loads .sp kernelSlots) m).regs .sp = old .sp + -256 from hload (.sp, 8) (by decide)]
    rw [add_assoc]
    exact add_zero _
  · rw [run_one, addi_ne _ _ _ hrsp]
    by_cases hslot : r ∈ kernelSlots.map Prod.fst
    · obtain ⟨x, hx, rfl⟩ := List.mem_map.mp hslot
      rw [hload x hx, if_neg hrsp]
    · rw [run_loads_other .sp kernelSlots m hslot]
      refine hsaved r ?_
      revert hr hrsp hslot
      cases r <;> decide

end Xv6.Trap
