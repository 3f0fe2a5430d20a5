import Mathlib.Data.List.TakeWhile
import Xv6.Vm.PageMap

/-! `copyout`, `copyin` and `copyinstr` against the byte-by-byte reading of them. -/

namespace Xv6.Vm
open Lib

def Sys.byte (s : Sys) (a : Nat) : UInt8 := (s.page (pgRoundDown a)).get (a % PGSIZE)

/-- What a page must be mapped with, to be read and to be written for the user. -/
def readable : List Nat := [PTE_V, PTE_U]
def writable : List Nat := [PTE_V, PTE_U, PTE_W]

/-- The physical address of the byte at `va`, if its page is mapped with all of `flags`. -/
def phys (s : Sys) (p : Nat) (flags : List Nat) (va : Nat) : Option Nat :=
  if va < MAXVA ∧ flags.all (has (entry s.page p 2 (va / PGSIZE))) then
    some (pte2pa (entry s.page p 2 (va / PGSIZE)) + va % PGSIZE)
  else none

def userByte (s : Sys) (p va : Nat) : UInt8 := ((phys s p readable va).map s.byte).getD 0

/-- A page table whose user pages are distinct pages of memory and not pages of the table. No page has address 0. -/
structure UserTable (s : Sys) (p : Nat) : Prop where
  aligned : p % PGSIZE = 0
  table : ∀ q, Within s p q → q ≠ 0
  user : ∀ va a, phys s p readable va = some a → pgRoundDown a ≠ 0 ∧ ¬ Within s p (pgRoundDown a)
  distinct : ∀ va va' a a', phys s p readable va = some a → phys s p readable va' = some a' →
    pgRoundDown a = pgRoundDown a' → va / PGSIZE = va' / PGSIZE

/-- The bytes `l` are at `va` in user memory, and nothing else has changed. -/
structure Delivered (s t : Sys) (p va : Nat) (l : List UInt8) : Prop where
  rest : t = { s with page := t.page }
  there : ∀ i < l.length, ∀ a, phys s p writable (va + i) = some a → t.byte a = l.getD i 0
  frame : ∀ a, (∀ i < l.length, phys s p writable (va + i) ≠ some a) → t.byte a = s.byte a

theorem pte2pa_aligned (e : Nat) : pte2pa e % PGSIZE = 0 := by
  unfold pte2pa
  rw [Nat.shiftLeft_eq]
  simp only [PGSIZE]
  omega

section
variable {s t u : Sys} {p va a : Nat} {l l' : List UInt8}

theorem phys_some {flags : List Nat} : phys s p flags va = some a ↔ va < MAXVA ∧
    (∀ f ∈ flags, has (entry s.page p 2 (va / PGSIZE)) f = true) ∧ a = pte2pa (entry s.page p 2 (va / PGSIZE)) + va % PGSIZE := by
  unfold phys
  split
  · next h =>
    rw [List.all_eq_true] at h
    exact ⟨fun he => ⟨h.1, h.2, (Option.some.inj he).symm⟩, fun he => by rw [he.2.2]⟩
  · next h =>
    rw [List.all_eq_true] at h
    exact ⟨nofun, fun he => absurd ⟨he.1, he.2.1⟩ h⟩

theorem phys_none {flags : List Nat} {f : Nat} (hf : f ∈ flags) (hno : has (entry s.page p 2 (va / PGSIZE)) f = false) :
    phys s p flags va = none := by
  unfold phys
  rw [if_neg]
  rintro ⟨-, hall⟩
  rw [List.all_eq_true.mp hall f hf] at hno
  cases hno

theorem phys_page {flags : List Nat} (h : phys s p flags va = some a) :
    pgRoundDown a = pte2pa (entry s.page p 2 (va / PGSIZE)) ∧ a % PGSIZE = va % PGSIZE := by
  obtain ⟨-, -, rfl⟩ := phys_some.mp h
  have := pte2pa_aligned (entry s.page p 2 (va / PGSIZE))
  simp only [pgRoundDown, PGSIZE] at this ⊢
  omega

theorem phys_readable (h : phys s p writable va = some a) : phys s p readable va = some a := by
  obtain ⟨hva, hf, ha⟩ := phys_some.mp h
  refine phys_some.mpr ⟨hva, fun f hf' => hf f ?_, ha⟩
  simp only [readable, writable, List.mem_cons, List.not_mem_nil, or_false] at hf' ⊢
  exact hf'.imp_right Or.inl

theorem phys_add {flags : List Nat} {i : Nat} (h : phys s p flags va = some a) (hi : va % PGSIZE + i < PGSIZE) :
    phys s p flags (va + i) = some (a + i) := by
  obtain ⟨hva, hf, rfl⟩ := phys_some.mp h
  have hdiv : (va + i) / PGSIZE = va / PGSIZE := by
    simp only [PGSIZE] at hi ⊢
    omega
  refine phys_some.mpr ⟨?_, by rw [hdiv]; exact hf, ?_⟩
  · simp only [MAXVA, PGSIZE] at hva hi ⊢
    omega
  · rw [hdiv]
    simp only [PGSIZE] at hi ⊢
    omega

theorem UserTable.inj {va' : Nat} (h : UserTable s p) (ha : phys s p readable va = some a)
    (ha' : phys s p readable va' = some a) : va = va' := by
  have hpage := h.distinct va va' a a ha ha' rfl
  have h1 := (phys_page ha).2
  have h2 := (phys_page ha').2
  rw [← Nat.div_add_mod va PGSIZE, ← Nat.div_add_mod va' PGSIZE, hpage, ← h1, ← h2]

theorem wp_of_ok {α : Type} {m : VmM α} {x : α} {Q : α → Sys → Prop} {E : Stop → Sys → Prop} (h : m s = .ok x t)
    (hQ : Q x t) : wp m Q E s := by
  unfold wp
  rw [h]
  exact hQ

theorem walkFrom_eq {v level q : Nat} (hv : v = va / PGSIZE) (hlevel : level ≤ 2) (hal : q % PGSIZE = 0)
    (hq : node s.page p (2 - level) (v / 512 ^ level / 512) = some q) :
    walkFrom va false level q s = .ok ((node s.page p 2 (v / 512)).elim 0 (· + 8 * (v % 512))) s := by
  refine eq_ok_of_wp ?_
  induction level generalizing q with
  | zero =>
    have hpx : px 0 va = v % 512 := by rw [px_eq, hv]; rfl
    have hq' : node s.page p 2 (v / 512) = some q := by simpa using hq
    rw [walkFrom, wp_pure, hpx, hq']
    exact ⟨rfl, rfl⟩
  | succ level ih =>
    obtain ⟨d, hd⟩ : ∃ d, d = 2 - (level + 1) := ⟨_, rfl⟩
    obtain ⟨k, hk⟩ : ∃ k, k = v / 512 ^ (level + 1) := ⟨_, rfl⟩
    have hk' : k = v / 512 ^ level / 512 := by rw [hk, Nat.pow_succ, Nat.div_div_eq_div_mul]
    have hd' : d + 1 = 2 - level := by omega
    rw [← hd, ← hk] at hq
    have hi : k % 512 < 512 := Nat.mod_lt _ (by omega)
    rw [walkFrom]
    simp only [wp_bind, wp_load, px_key hv hk, word_entry hal hi, ← entry_of_node hq]
    split
    · next hvalid =>
      have ht : node s.page p (d + 1) k = some (pte2pa (entry s.page p d k)) := by rw [node_succ, target, if_pos hvalid]
      exact ih (by omega) (pte2pa_aligned _) (by rw [← hd', ← hk', ht])
    · next hvalid =>
      have hbelow : node s.page p (2 - level) (v / 512 ^ level / 512) = none := by
        rw [← hd', ← hk', node_succ, target, if_neg hvalid]
      have hnone : node s.page p 2 (v / 512) = none := by
        rcases level with - | level
        · simpa using hbelow
        · obtain rfl : level = 0 := by omega
          rw [node_succ, entry_of_none (by simpa using hbelow), target_zero]
      simp only [Bool.not_false, if_true, wp_pure, hnone, Option.elim_none, and_self]

theorem walk_eq (hal : p % PGSIZE = 0) (hva : va < MAXVA) :
    walk p va false s = .ok ((node s.page p 2 (va / PGSIZE / 512)).elim 0 (· + 8 * (va / PGSIZE % 512))) s := by
  have hz : va / PGSIZE / 512 ^ 2 / 512 = 0 := by
    rw [Nat.div_div_eq_div_mul, Nat.div_div_eq_div_mul]
    exact Nat.div_eq_of_lt (Nat.lt_trans hva (by decide))
  rw [← walkFrom_eq rfl (le_refl 2) hal (by rw [hz]; exact if_pos rfl)]
  unfold walk
  simp only [if_neg (Nat.not_le.mpr hva)]

theorem UserTable.walk_cases (h : UserTable s p) (hva : va < MAXVA) :
    (∃ pte, pte ≠ 0 ∧ walk p va false s = .ok pte s ∧ s.word pte = entry s.page p 2 (va / PGSIZE)) ∨
    (walk p va false s = .ok 0 s ∧ entry s.page p 2 (va / PGSIZE) = 0) := by
  rw [walk_eq h.aligned hva]
  cases hn : node s.page p 2 (va / PGSIZE / 512) with
  | none => exact .inr ⟨rfl, entry_of_none hn⟩
  | some q =>
    have hne := h.table q ⟨2, _, le_refl 2, hn⟩
    have hal : q % PGSIZE = 0 := by
      rw [node_succ] at hn
      unfold target at hn
      split at hn <;> cases hn
      exact pte2pa_aligned _
    refine .inl ⟨_, ?_, rfl, ?_⟩
    · simp only [Option.elim_some]
      omega
    · rw [Option.elim_some, word_entry hal (Nat.mod_lt _ (by omega)), entry_of_node hn]

theorem pgRoundDown_div : pgRoundDown va / PGSIZE = va / PGSIZE := Nat.mul_div_cancel _ (by decide)

theorem pgRoundDown_lt : pgRoundDown va < MAXVA ↔ va < MAXVA := by
  simp only [pgRoundDown, MAXVA, PGSIZE]
  omega

theorem sub_pgRoundDown : va - pgRoundDown va = va % PGSIZE := by
  simp only [pgRoundDown, PGSIZE]
  omega

theorem UserTable.walkaddr_eq (h : UserTable s p) :
    walkaddr p (pgRoundDown va) s = .ok ((phys s p readable va).elim 0 pgRoundDown) s := by
  refine eq_ok_of_wp ?_
  unfold walkaddr
  rw [wp_ite]
  by_cases hva : va < MAXVA
  · rw [if_neg (Nat.not_le.mpr (pgRoundDown_lt.mpr hva)), wp_bind]
    rcases h.walk_cases (pgRoundDown_lt.mpr hva) with ⟨pte, hne, hw, hword⟩ | ⟨hw, h0⟩
    · refine wp_of_ok hw ?_
      rw [pgRoundDown_div] at hword
      simp only [if_neg hne, wp_bind, wp_load, hword, wp_ite, wp_pure, true_and, Bool.not_eq_true']
      split
      · next hV => rw [phys_none (f := PTE_V) (by decide) hV]; rfl
      · next hV =>
        split
        · next hU => rw [phys_none (f := PTE_U) (by decide) hU]; rfl
        · next hU =>
          have hp : phys s p readable va = some (pte2pa (entry s.page p 2 (va / PGSIZE)) + va % PGSIZE) := by
            refine phys_some.mpr ⟨hva, fun f hf => ?_, rfl⟩
            simp only [readable, List.mem_cons, List.not_mem_nil, or_false] at hf
            rcases hf with rfl | rfl
            · simpa using hV
            · simpa using hU
          rw [hp, Option.elim_some, (phys_page hp).1]
    · rw [pgRoundDown_div] at h0
      refine wp_of_ok hw ?_
      rw [if_pos rfl, wp_pure, phys_none (f := PTE_V) (by decide) (by rw [h0, has_zero])]
      exact ⟨rfl, rfl⟩
  · rw [if_pos (Nat.le_of_not_lt (mt pgRoundDown_lt.mp hva)), wp_pure, phys, if_neg fun hx => hva hx.1]
    exact ⟨rfl, rfl⟩

theorem byte_setBytes {n : Nat} (hin : a % PGSIZE + l.length ≤ PGSIZE) :
    (s.setBytes a l).byte n = if a ≤ n ∧ n < a + l.length then l.getD (n - a) 0 else s.byte n := by
  have hn : n % PGSIZE < PGSIZE := Nat.mod_lt _ (by decide)
  by_cases hpage : pgRoundDown n = pgRoundDown a
  · have hget := Bytes.get_write (s.page (pgRoundDown a)) (a % PGSIZE) l.length (fun i => l.getD i 0) (n % PGSIZE) hn
    have hiff : (a % PGSIZE ≤ n % PGSIZE ∧ n % PGSIZE < a % PGSIZE + l.length) ↔ (a ≤ n ∧ n < a + l.length) := by
      simp only [pgRoundDown, PGSIZE] at hpage hin ⊢
      omega
    simp only [Sys.byte, Sys.setBytes, Sys.setPage, hpage, Function.update_self]
    rw [hget]
    simp only [hiff]
    split
    · next hc =>
      congr 1
      simp only [pgRoundDown, PGSIZE] at hpage hc ⊢
      omega
    · rfl
  · simp only [Sys.byte, Sys.setBytes, Sys.setPage, Function.update_of_ne hpage]
    rw [if_neg]
    simp only [pgRoundDown, PGSIZE] at hpage hin ⊢
    omega

theorem Delivered.refl : Delivered s s p va [] := ⟨rfl, fun _ hi => absurd hi (Nat.not_lt_zero _), fun _ _ => rfl⟩

theorem Same.phys (h : Same s t p) (flags : List Nat) (va : Nat) : Vm.phys t p flags va = Vm.phys s p flags va := by
  unfold Vm.phys
  rw [h 2 _ (le_refl 2)]

theorem UserTable.same (h : UserTable s p) (hs : Same s t p) : UserTable t p := by
  refine ⟨h.aligned, fun q hq => h.table q (hs.within.mp hq), fun va a ha => ?_, fun va va' a a' h1 h2 => ?_⟩
  · rw [hs.phys] at ha
    exact ⟨(h.user va a ha).1, fun hw => (h.user va a ha).2 (hs.within.mp hw)⟩
  · rw [hs.phys] at h1 h2
    exact h.distinct va va' a a' h1 h2

theorem UserTable.setBytes (h : UserTable s p) {b : Nat} (ha : phys s p readable b = some a) : Same s (s.setBytes a l) p :=
  same_of_pages fun q hq => Function.update_of_ne (by
    rintro rfl
    exact (h.user b a ha).2 hq) _ _

theorem delivered_page (ha : phys s p writable va = some a) (hin : va % PGSIZE + l.length ≤ PGSIZE) :
    Delivered s (s.setBytes a l) p va l := by
  have hmod := (phys_page ha).2
  refine ⟨rfl, fun i hi b hb => ?_, fun b hb => ?_⟩
  · rw [phys_add ha (by omega)] at hb
    cases hb
    rw [byte_setBytes (by omega), if_pos (by omega), Nat.add_sub_cancel_left]
  · rw [byte_setBytes (by omega), if_neg]
    rintro ⟨h1, h2⟩
    refine hb (b - a) (by omega) ?_
    rw [phys_add ha (by omega)]
    congr 1
    omega

theorem Delivered.append (h : UserTable s p) (h1 : Delivered s t p va l)
    (hphys : ∀ flags va, phys t p flags va = phys s p flags va) (h2 : Delivered t u p (va + l.length) l') :
    Delivered s u p va (l ++ l') where
  rest := by
    have e1 := h1.rest
    have e2 := h2.rest
    rw [e1] at e2
    exact e2
  there i hi b hb := by
    by_cases hlt : i < l.length
    · rw [List.getD_append _ _ _ _ hlt, ← h1.there i hlt b hb]
      refine h2.frame b fun j _ hj => ?_
      rw [hphys] at hj
      have := h.inj (phys_readable hb) (phys_readable hj)
      omega
    · rw [List.getD_append_right _ _ _ _ (by omega)]
      rw [List.length_append] at hi
      refine h2.there (i - l.length) (by omega) b ?_
      rw [hphys, ← hb]
      congr 1
      omega
  frame b hb := by
    rw [List.length_append] at hb
    rw [h2.frame b fun i hi hx => ?_, h1.frame b fun i hi => hb i (by omega)]
    rw [hphys, Nat.add_assoc] at hx
    exact hb _ (by omega) hx

/-- What a copy of `src` to `va` does, one byte after the other. -/
def Copied (s : Sys) (p va : Nat) (src : List UInt8) (r : Int) (t : Sys) : Prop :=
  ∃ k ≤ src.length, (∀ i < k, (phys s p writable (va + i)).isSome) ∧ Delivered s t p va (src.take k) ∧
    (r = 0 ∧ k = src.length ∨ r = -1 ∧ k < src.length ∧ phys s p writable (va + k) = none)

theorem UserTable.wp_copyoutFrom {fuel : Nat} {src : List UInt8} (h : UserTable s p) (hfuel : src.length < fuel) :
    wp (copyoutFrom p fuel va src) (Copied s p va src) (fun _ _ => False) s := by
  induction fuel generalizing s va src with
  | zero => omega
  | succ fuel ih =>
    rw [copyoutFrom, wp_ite]
    split
    · next hlen =>
      obtain rfl := List.length_eq_zero_iff.mp hlen
      exact ⟨0, le_refl 0, fun i hi => absurd hi (Nat.not_lt_zero i), .refl, .inl ⟨rfl, rfl⟩⟩
    next hlen =>
    -- nothing is written where the first byte lies nowhere
    have hfail : phys s p writable va = none → Copied s p va src (-1) s := fun hn =>
      ⟨0, Nat.zero_le _, fun i hi => absurd hi (Nat.not_lt_zero i), .refl, .inr ⟨rfl, by omega, hn⟩⟩
    dsimp only
    rw [wp_ite]
    by_cases hva : va < MAXVA
    · rw [if_neg (Nat.not_le.mpr (pgRoundDown_lt.mpr hva)), wp_bind]
      rcases h.walk_cases (pgRoundDown_lt.mpr hva) with ⟨pte, hne, hw, hword⟩ | ⟨hw, h0⟩
      · refine wp_of_ok hw ?_
        rw [pgRoundDown_div] at hword
        simp only [if_neg hne, wp_bind, wp_load, hword]
        rw [wp_ite]
        split
        · next hbad =>
          simp only [Bool.or_eq_true, Bool.not_eq_true'] at hbad
          refine hfail ?_
          rcases hbad with (hV | hU) | hW
          · exact phys_none (by decide) hV
          · exact phys_none (by decide) hU
          · exact phys_none (by decide) hW
        · next hok =>
          simp only [Bool.or_eq_true, Bool.not_eq_true', not_or, Bool.not_eq_false] at hok
          obtain ⟨⟨hV, hU⟩, hW⟩ := hok
          have ha : phys s p writable va = some (pte2pa (entry s.page p 2 (va / PGSIZE)) + va % PGSIZE) := by
            refine phys_some.mpr ⟨hva, fun f hf => ?_, rfl⟩
            simp only [writable, List.mem_cons, List.not_mem_nil, or_false] at hf
            rcases hf with rfl | rfl | rfl <;> assumption
          rw [sub_pgRoundDown]
          have hmod : va % PGSIZE < PGSIZE := Nat.mod_lt _ (by decide)
          obtain ⟨n, hn⟩ : ∃ n, n = min (PGSIZE - va % PGSIZE) src.length := ⟨_, rfl⟩
          rw [← hn]
          simp only [wp_bind, wp_change]
          generalize pte2pa (entry s.page p 2 (va / PGSIZE)) + va % PGSIZE = a at ha
          have hsame := h.setBytes (l := src.take n) (phys_readable ha)
          have htab := h.same hsame
          have hphys := hsame.phys
          have htake : (src.take n).length = n := by
            rw [List.length_take]
            omega
          have hdel := delivered_page ha (l := src.take n) (by rw [htake]; omega)
          have hfirst : ∀ i < n, (phys s p writable (va + i)).isSome := fun i hi => by
            rw [phys_add ha (by omega)]
            rfl
          refine wp_post (ih htab (by rw [List.length_drop]; omega)) fun r t hr => ?_
          obtain ⟨k, hk, hmap, hd, hend⟩ := hr
          rw [List.length_drop] at hk hend
          by_cases hlast : n = src.length
          · -- the copy ends in this page
            obtain rfl : k = 0 := by omega
            have hd' : Delivered s t p va (src.take n ++ []) := by
              refine hdel.append h hphys ?_
              rw [List.take_zero] at hd
              exact ⟨hd.rest, fun i hi => absurd hi (Nat.not_lt_zero i), fun b _ => hd.frame b fun i hi => absurd hi (Nat.not_lt_zero i)⟩
            rw [List.append_nil] at hd'
            refine ⟨n, by omega, hfirst, hd', .inl ⟨?_, hlast⟩⟩
            rcases hend with ⟨hr, -⟩ | ⟨-, hlt, -⟩
            · exact hr
            · omega
          · have hnext : pgRoundDown va + PGSIZE = va + n := by
              simp only [pgRoundDown, PGSIZE] at hn hmod ⊢
              omega
            rw [hnext] at hmap hd hend
            refine ⟨n + k, by omega, fun i hi => ?_, ?_, ?_⟩
            · by_cases hin : i < n
              · exact hfirst i hin
              · have := hmap (i - n) (by omega)
                rw [hphys] at this
                rw [show va + i = va + n + (i - n) by omega]
                exact this
            · rw [List.take_add]
              exact hdel.append h hphys (by rw [htake]; exact hd)
            · rcases hend with ⟨hr, hk'⟩ | ⟨hr, hk', hno⟩
              · exact .inl ⟨hr, by omega⟩
              · rw [hphys, Nat.add_assoc] at hno
                exact .inr ⟨hr, by omega, hno⟩
      · rw [pgRoundDown_div] at h0
        refine wp_of_ok hw ?_
        rw [if_pos rfl, wp_pure]
        exact hfail (phys_none (f := PTE_V) (by decide) (by rw [h0, has_zero]))
    · rw [if_pos (Nat.le_of_not_lt (mt pgRoundDown_lt.mp hva)), wp_pure]
      exact hfail (if_neg fun hx => hva hx.1)

variable (va) in
theorem UserTable.copied (h : UserTable s p) (src : List UInt8) : ∃ r t, copyout p va src s = .ok r t ∧ Copied s p va src r t := by
  have hwp : wp (copyoutFrom p _ va src) _ _ s := h.wp_copyoutFrom (Nat.lt_succ_self src.length)
  unfold wp at hwp
  unfold copyout
  split at hwp
  · next r t hrun => exact ⟨r, t, hrun, hwp⟩
  · exact hwp.elim

/-! ### copyin and copyinstr -/

/-- What the user has at the `n` addresses from `va` on. -/
def userBytes (s : Sys) (p va n : Nat) : List UInt8 := (List.range n).map fun i => userByte s p (va + i)

theorem userBytes_add {m n : Nat} : userBytes s p va (m + n) = userBytes s p va m ++ userBytes s p (va + m) n := by
  simp only [userBytes, List.range_add, List.map_append, List.map_map, Function.comp_def, Nat.add_assoc]

theorem length_userBytes {n : Nat} : (userBytes s p va n).length = n := by simp [userBytes]

theorem userByte_of_phys (ha : phys s p readable va = some a) : userByte s p va = s.byte a := by
  rw [userByte, ha, Option.map_some, Option.getD_some]

theorem bytes_eq {n : Nat} (ha : phys s p readable va = some a) (hin : va % PGSIZE + n ≤ PGSIZE) :
    s.bytes a n = userBytes s p va n := by
  have hmod := (phys_page ha).2
  refine List.map_congr_left fun i hi => ?_
  have hi := List.mem_range.mp hi
  rw [userByte_of_phys (phys_add ha (by omega)), Sys.byte]
  have hpage : pgRoundDown (a + i) = pgRoundDown a := by
    simp only [pgRoundDown, PGSIZE] at hin hmod ⊢
    omega
  have hoff : (a + i) % PGSIZE = a % PGSIZE + i := by
    simp only [PGSIZE] at hin hmod ⊢
    omega
  rw [hpage, hoff]

theorem source_page (ha : phys s p readable va = some a) : pgRoundDown a + (va - pgRoundDown va) = a := by
  have h1 := (phys_page ha).2
  simp only [pgRoundDown, PGSIZE] at h1 ⊢
  omega

def Fetched (s : Sys) (p va len : Nat) (r : Int × List UInt8) (t : Sys) : Prop :=
  t = s ∧ ∃ k ≤ len, (∀ i < k, (phys s p readable (va + i)).isSome) ∧ r.2 = userBytes s p va k ∧
    (r.1 = 0 ∧ k = len ∨ r.1 = -1 ∧ k < len ∧ phys s p readable (va + k) = none)

theorem mapped_add {flags : List Nat} {n k i : Nat} (ha : phys s p flags va = some a) (hin : va % PGSIZE + n ≤ PGSIZE)
    (hmap : ∀ i < k, (phys s p flags (va + n + i)).isSome) (hi : i < n + k) : (phys s p flags (va + i)).isSome := by
  by_cases hlt : i < n
  · rw [phys_add ha (by omega)]
    rfl
  · rw [show va + i = va + n + (i - n) by omega]
    exact hmap (i - n) (by omega)

theorem UserTable.wp_copyinFrom {fuel len : Nat} (h : UserTable s p) (hfuel : len < fuel) :
    wp (copyinFrom p fuel va len) (Fetched s p va len) (fun _ _ => False) s := by
  induction fuel generalizing va len with
  | zero => omega
  | succ fuel ih =>
    rw [copyinFrom, wp_ite]
    split
    · next hlen =>
      subst hlen
      exact ⟨rfl, 0, le_refl 0, fun i hi => absurd hi (Nat.not_lt_zero i), rfl, .inl ⟨rfl, rfl⟩⟩
    next hlen =>
    rw [wp_bind]
    refine wp_of_ok h.walkaddr_eq ?_
    cases ha : phys s p readable va with
    | none =>
      rw [Option.elim_none, if_pos rfl, wp_pure]
      exact ⟨rfl, 0, Nat.zero_le _, fun i hi => absurd hi (Nat.not_lt_zero i), rfl, .inr ⟨rfl, by omega, ha⟩⟩
    | some a =>
      have hmod : va % PGSIZE < PGSIZE := Nat.mod_lt _ (by decide)
      rw [Option.elim_some, if_neg (h.user va a ha).1]
      simp only [wp_bind, wp_view, source_page ha]
      rw [sub_pgRoundDown]
      obtain ⟨n, hn⟩ : ∃ n, n = min (PGSIZE - va % PGSIZE) len := ⟨_, rfl⟩
      have hin : va % PGSIZE + n ≤ PGSIZE := by omega
      rw [← hn, bytes_eq ha hin]
      refine wp_post (ih (by omega)) fun r t hr => ?_
      obtain ⟨rfl, k, hk, hmap, hbytes, hend⟩ := hr
      rw [wp_pure]
      by_cases hlast : n = len
      · obtain rfl : k = 0 := by omega
        refine ⟨rfl, n, by omega, fun i hi => mapped_add (k := 0) ha hin (fun j hj => absurd hj (Nat.not_lt_zero j)) hi,
          ?_, .inl ⟨?_, hlast⟩⟩
        · rw [hbytes]
          exact List.append_nil _
        · rcases hend with ⟨hr, -⟩ | ⟨-, hlt, -⟩
          · exact hr
          · omega
      · have hnext : pgRoundDown va + PGSIZE = va + n := by
          simp only [pgRoundDown, PGSIZE] at hn hmod ⊢
          omega
        rw [hnext] at hmap hbytes hend
        refine ⟨rfl, n + k, by omega, fun i hi => mapped_add ha hin hmap hi, ?_, ?_⟩
        · rw [userBytes_add, ← hbytes]
        · rcases hend with ⟨hr, hk'⟩ | ⟨hr, hk', hno⟩
          · exact .inl ⟨hr, by omega⟩
          · rw [Nat.add_assoc] at hno
            exact .inr ⟨hr, by omega, hno⟩

variable (va) in
theorem UserTable.fetched (h : UserTable s p) (len : Nat) : ∃ r, copyin p va len s = .ok r s ∧ Fetched s p va len r s := by
  have hwp : wp (copyinFrom p _ va len) _ _ s := h.wp_copyinFrom (Nat.lt_succ_self len)
  unfold wp at hwp
  unfold copyin
  split at hwp
  · next r t hrun =>
    obtain rfl := hwp.1
    exact ⟨r, hrun, hwp⟩
  · exact hwp.elim

def Scanned (s : Sys) (p va max : Nat) (r : Int × List UInt8) (t : Sys) : Prop :=
  t = s ∧ ∃ k ≤ max, (∀ i < k, (phys s p readable (va + i)).isSome) ∧ r.2 = userBytes s p va k ∧
    (r.1 = 0 ∧ (∃ j, k = j + 1 ∧ userByte s p (va + j) = 0 ∧ ∀ i < j, userByte s p (va + i) ≠ 0) ∨
     r.1 = -1 ∧ (∀ i < k, userByte s p (va + i) ≠ 0) ∧ (k = max ∨ phys s p readable (va + k) = none))

theorem takeWhile_userBytes {n k : Nat} (hk : ((userBytes s p va n).takeWhile (· ≠ 0)).length = k) :
    (∀ i < k, userByte s p (va + i) ≠ 0) ∧ (k < n → userByte s p (va + k) = 0 ∧
      (userBytes s p va n).takeWhile (· ≠ 0) ++ [0] = userBytes s p va (k + 1)) := by
  have hle : k ≤ n := by
    have := (List.takeWhile_prefix (l := userBytes s p va n) (fun x => decide (x ≠ 0))).length_le
    rw [length_userBytes] at this
    omega
  have hpre : (userBytes s p va n).takeWhile (· ≠ 0) = userBytes s p va k := by
    have h1 := List.prefix_iff_eq_take.mp (List.takeWhile_prefix (l := userBytes s p va n) (fun x => decide (x ≠ 0)))
    rw [hk] at h1
    rw [h1, show n = k + (n - k) by omega, userBytes_add, List.take_append_of_le_length (by rw [length_userBytes]),
      List.take_of_length_le (by rw [length_userBytes])]
  refine ⟨fun i hi hzero => ?_, fun hlt => ?_⟩
  · have hmem : userByte s p (va + i) ∈ (userBytes s p va n).takeWhile (· ≠ 0) := by
      rw [hpre]
      exact List.mem_map.mpr ⟨i, List.mem_range.mpr hi, rfl⟩
    have := List.mem_takeWhile_imp hmem
    rw [hzero] at this
    simp at this
  · have hsplit : userBytes s p va n = userBytes s p va k ++ userBytes s p (va + k) (n - k) := by
      rw [← userBytes_add]
      congr 1
      omega
    obtain ⟨m, hm⟩ : ∃ m, n - k = 1 + m := ⟨n - k - 1, by omega⟩
    have hzero : userByte s p (va + k) = 0 := by
      by_contra hne
      have hlong : userBytes s p va (k + 1) <+: (userBytes s p va n).takeWhile (· ≠ 0) := by
        rw [hsplit, hm, userBytes_add (m := 1), ← List.append_assoc, ← userBytes_add]
        rw [List.takeWhile_append_of_pos]
        · exact List.prefix_append _ _
        · intro x hx
          obtain ⟨i, hi, rfl⟩ := List.mem_map.mp hx
          have hi := List.mem_range.mp hi
          by_cases hik : i = k
          · subst hik
            simpa using hne
          · have hmem : userByte s p (va + i) ∈ (userBytes s p va n).takeWhile (· ≠ 0) := by
              rw [hpre]
              exact List.mem_map.mpr ⟨i, List.mem_range.mpr (by omega), rfl⟩
            have := List.mem_takeWhile_imp hmem
            exact this
      have := hlong.length_le
      rw [hk, length_userBytes] at this
      omega
    refine ⟨hzero, ?_⟩
    rw [hpre, userBytes_add]
    simp [userBytes, hzero]

theorem UserTable.wp_copyinstrFrom {fuel max : Nat} (h : UserTable s p) (hfuel : max < fuel) :
    wp (copyinstrFrom p fuel va max) (Scanned s p va max) (fun _ _ => False) s := by
  induction fuel generalizing va max with
  | zero => omega
  | succ fuel ih =>
    rw [copyinstrFrom, wp_ite]
    split
    · next hmax =>
      subst hmax
      exact ⟨rfl, 0, le_refl 0, fun i hi => absurd hi (Nat.not_lt_zero i), rfl,
        .inr ⟨rfl, fun i hi => absurd hi (Nat.not_lt_zero i), .inl rfl⟩⟩
    next hmax =>
    rw [wp_bind]
    refine wp_of_ok h.walkaddr_eq ?_
    cases ha : phys s p readable va with
    | none =>
      rw [Option.elim_none, if_pos rfl, wp_pure]
      exact ⟨rfl, 0, Nat.zero_le _, fun i hi => absurd hi (Nat.not_lt_zero i), rfl,
        .inr ⟨rfl, fun i hi => absurd hi (Nat.not_lt_zero i), .inr ha⟩⟩
    | some a =>
      have hmod : va % PGSIZE < PGSIZE := Nat.mod_lt _ (by decide)
      rw [Option.elim_some, if_neg (h.user va a ha).1]
      simp only [wp_bind, wp_view, source_page ha]
      rw [sub_pgRoundDown]
      obtain ⟨n, hn⟩ : ∃ n, n = min (PGSIZE - va % PGSIZE) max := ⟨_, rfl⟩
      have hin : va % PGSIZE + n ≤ PGSIZE := by omega
      have hle : n ≤ max := by omega
      have hnext : n ≠ max → pgRoundDown va + PGSIZE = va + n := fun hne => by
        simp only [pgRoundDown, PGSIZE] at hn hmod ⊢
        omega
      have hpage : ∀ i < n, (phys s p readable (va + i)).isSome := fun i hi =>
        mapped_add (k := 0) ha hin (fun j hj => absurd hj (Nat.not_lt_zero j)) hi
      rw [← hn, bytes_eq ha hin]
      obtain ⟨j, hj⟩ : ∃ j, ((userBytes s p va n).takeWhile (· ≠ 0)).length = j := ⟨_, rfl⟩
      obtain ⟨hnonzero, hstop⟩ := takeWhile_userBytes hj
      rw [wp_ite]
      split
      · next hlt =>
        -- the NUL is in this page
        rw [hj] at hlt
        obtain ⟨hzero, hstr⟩ := hstop hlt
        rw [wp_pure]
        exact ⟨rfl, j + 1, by omega, fun i hi => hpage i (by omega), hstr, .inl ⟨rfl, j, rfl, hzero, hnonzero⟩⟩
      · next hge =>
        rw [hj] at hge
        refine wp_then (ih (by omega)) fun r t hr => ?_
        obtain ⟨rfl, k, hk, hmap, hbytes, hend⟩ := hr
        rw [wp_pure]
        by_cases hlast : n = max
        · obtain rfl : k = 0 := by omega
          refine ⟨rfl, n, by omega, hpage, ?_, .inr ⟨?_, fun i hi => hnonzero i (by omega), .inl hlast⟩⟩
          · rw [hbytes]
            exact List.append_nil _
          · rcases hend with ⟨-, j', hj', -⟩ | ⟨hr, -⟩
            · omega
            · exact hr
        · have hshift : ∀ i, n ≤ i → va + i = va + n + (i - n) := fun i hi => by omega
          rw [hnext hlast] at hmap hbytes hend
          refine ⟨rfl, n + k, Nat.add_le_of_le_sub' hle hk, fun i hi => mapped_add ha hin hmap hi, ?_, ?_⟩
          · rw [userBytes_add, ← hbytes]
          · rcases hend with ⟨hr, j', rfl, hzero, hne⟩ | ⟨hr, hne, hno⟩
            · refine .inl ⟨hr, n + j', rfl, by rw [← Nat.add_assoc]; exact hzero, fun i hi => ?_⟩
              by_cases hlt : i < n
              · exact hnonzero i (by omega)
              · rw [hshift i (by omega)]
                exact hne _ (by omega)
            · refine .inr ⟨hr, fun i hi => ?_, ?_⟩
              · by_cases hlt : i < n
                · exact hnonzero i (by omega)
                · rw [hshift i (by omega)]
                  exact hne _ (by omega)
              · rcases hno with hm | hno
                · exact .inl (by omega)
                · exact .inr (by rw [← Nat.add_assoc]; exact hno)

variable (va) in
theorem UserTable.scanned (h : UserTable s p) (max : Nat) :
    ∃ r, copyinstr p va max s = .ok r s ∧ Scanned s p va max r s := by
  have hwp : wp (copyinstrFrom p _ va max) _ _ s := h.wp_copyinstrFrom (Nat.lt_succ_self max)
  unfold wp at hwp
  unfold copyinstr
  split at hwp
  · next r t hrun =>
    obtain rfl := hwp.1
    exact ⟨r, hrun, hwp⟩
  · exact hwp.elim

theorem UserTable.within_aligned {q : Nat} (h : UserTable s p) (hq : Within s p q) : q % PGSIZE = 0 := by
  obtain ⟨d, k, -, hn⟩ := hq
  cases d with
  | zero =>
    simp only [node] at hn
    split at hn <;> cases hn
    exact h.aligned
  | succ d =>
    rw [node_succ] at hn
    unfold target at hn
    split at hn <;> cases hn
    exact pte2pa_aligned _

theorem Delivered.same (h : UserTable s p) (hd : Delivered s t p va l) : Same s t p := by
  refine same_of_pages fun q hq => funext fun i => ?_
  have hal := h.within_aligned hq
  have hdown : pgRoundDown (q + i) = q := pgRoundDown_add hal i.isLt
  have hmod : (q + i) % PGSIZE = i := by
    have hi := i.isLt
    simp only [PGSIZE] at hal hi ⊢
    omega
  have hbyte := hd.frame (q + i) fun j _ hj => (h.user _ _ (phys_readable hj)).2 (by rw [hdown]; exact hq)
  simp only [Sys.byte, hdown, hmod, Bytes.get, i.isLt, dif_pos] at hbyte
  exact hbyte

theorem Delivered.userBytes (h : UserTable s p) (hd : Delivered s t p va l)
    (hmap : ∀ i < l.length, (phys s p writable (va + i)).isSome) : Vm.userBytes t p va l.length = l := by
  refine List.ext_getElem length_userBytes fun i h1 h2 => ?_
  obtain ⟨a, ha⟩ := Option.isSome_iff_exists.mp (hmap i h2)
  have hread : phys t p readable (va + i) = some a := by rw [(hd.same h).phys, phys_readable ha]
  simp only [Vm.userBytes, List.getElem_map, List.getElem_range]
  rw [userByte_of_phys hread, hd.there i h2 a ha, List.getD_eq_getElem _ _ h2]

/-- `copyout` returns 0 and has written all bytes if it can, and otherwise -1 and has written the first of them;
    `copyin` does the same for reading, `copyinstr` up to the NUL. All three return, for every address and length. -/
theorem user_copies (h : UserTable s p) :
    (∀ va src, ∃ r t, copyout p va src s = .ok r t ∧ (r = 0 ∨ r = -1) ∧
      (r = 0 ↔ ∀ i < src.length, (phys s p writable (va + i)).isSome) ∧
      ∃ k ≤ src.length, (r = 0 → k = src.length) ∧ (∀ i < k, (phys s p writable (va + i)).isSome) ∧
        Delivered s t p va (src.take k)) ∧
    (∀ va len, ∃ r l, copyin p va len s = .ok (r, l) s ∧ (r = 0 ∨ r = -1) ∧
      (r = 0 ↔ ∀ i < len, (phys s p readable (va + i)).isSome) ∧
      ∃ k ≤ len, (r = 0 → k = len) ∧ (∀ i < k, (phys s p readable (va + i)).isSome) ∧ l = userBytes s p va k) ∧
    (∀ va max, ∃ r l, copyinstr p va max s = .ok (r, l) s ∧ (r = 0 ∨ r = -1) ∧ l.length ≤ max ∧
      (∀ k, (r = 0 ∧ l.length = k + 1 → l = userBytes s p va (k + 1)) ∧
        (r = 0 ∧ l.length = k + 1 ↔ k < max ∧ (∀ i ≤ k, (phys s p readable (va + i)).isSome) ∧
          userByte s p (va + k) = 0 ∧ ∀ i < k, userByte s p (va + i) ≠ 0)) ∧
      (r = 0 → l ≠ [])) ∧
    ∀ va src t, copyout p va src s = .ok 0 t → copyin p va src.length t = .ok (0, src) t := by
  have hout : ∀ va src, ∃ r t, copyout p va src s = .ok r t ∧ Copied s p va src r t := fun va src => h.copied va src
  refine ⟨fun va src => ?_, fun va len => ?_, fun va max => ?_, fun va src t hrun => ?_⟩
  · obtain ⟨r, t, hrun, k, hk, hmap, hd, hend⟩ := hout va src
    refine ⟨r, t, hrun, hend.imp And.left And.left, ⟨fun hr => ?_, fun hall => ?_⟩, k, hk, fun hr => ?_, hmap, hd⟩
    · rcases hend with ⟨-, rfl⟩ | ⟨hr', -⟩
      · exact hmap
      · omega
    · rcases hend with ⟨hr, -⟩ | ⟨-, hlt, hno⟩
      · exact hr
      · have := hall k hlt
        rw [hno] at this
        cases this
    · rcases hend with ⟨-, hk'⟩ | ⟨hr', -⟩
      · exact hk'
      · omega
  · obtain ⟨⟨r, l⟩, hrun, -, k, hk, hmap, hl, hend⟩ := h.fetched va len
    refine ⟨r, l, hrun, hend.imp And.left And.left, ⟨fun hr => ?_, fun hall => ?_⟩, k, hk, fun hr => ?_, hmap, hl⟩
    · rcases hend with ⟨-, rfl⟩ | ⟨hr', -⟩
      · exact hmap
      · exact absurd (hr.symm.trans hr') (by decide)
    · rcases hend with ⟨hr, -⟩ | ⟨-, hlt, hno⟩
      · exact hr
      · have := hall k hlt
        rw [hno] at this
        cases this
    · rcases hend with ⟨-, hk'⟩ | ⟨hr', -⟩
      · exact hk'
      · exact absurd (hr.symm.trans hr') (by decide)
  · obtain ⟨⟨r, l⟩, hrun, -, k, hk, hmap, hl, hend⟩ := h.scanned va max
    simp only at hl hend
    subst hl
    refine ⟨r, _, hrun, hend.imp And.left And.left, by rw [length_userBytes]; exact hk, fun j => ?_, fun hr => ?_⟩
    · rw [length_userBytes]
      refine ⟨fun hj => by rw [hj.2], fun hj => ?_, fun hj => ?_⟩
      · obtain ⟨rfl, rfl⟩ := hj
        rcases hend with ⟨-, j', hj', hzero, hne⟩ | ⟨hr', -⟩
        · obtain rfl : j = j' := by omega
          exact ⟨by omega, fun i hi => hmap i (by omega), hzero, hne⟩
        · cases hr'
      · obtain ⟨hlt, hread, hzero, hne⟩ := hj
        rcases hend with ⟨hr, j', hj', hzero', hne'⟩ | ⟨-, hne', hno⟩
        · -- there is only one first NUL
          have h1 : ¬ j' < j := fun hx => hne j' hx hzero'
          have h2 : ¬ j < j' := fun hx => hne' j hx hzero
          exact ⟨hr, by omega⟩
        · exfalso
          have h1 : ¬ j < k := fun hx => hne' j hx hzero
          rcases hno with hmax | hno
          · omega
          · have := hread k (by omega)
            rw [hno] at this
            cases this
    · rcases hend with ⟨-, j', rfl, -⟩ | ⟨hr', -⟩
      · exact List.ne_nil_of_length_eq_add_one length_userBytes
      · exact absurd (hr.symm.trans hr') (by decide)
  · obtain ⟨r, t', hrun', k, hk, hmap, hd, hend⟩ := hout va src
    cases hrun.symm.trans hrun'
    rcases hend with ⟨-, rfl⟩ | ⟨hr, -⟩
    · rw [List.take_length] at hd
      have htab := h.same (hd.same h)
      obtain ⟨⟨r, l⟩, hin, -, k, hk', hread, hl, hend⟩ := htab.fetched va src.length
      simp only at hl hend
      rcases hend with ⟨rfl, rfl⟩ | ⟨-, hlt, hno⟩
      · rw [hin, hl, hd.userBytes h hmap]
      · exfalso
        obtain ⟨a, ha⟩ := Option.isSome_iff_exists.mp (hmap k hlt)
        rw [(hd.same h).phys, phys_readable ha] at hno
        cases hno
    · cases hr

end

theorem own_of_phys {s : Sys} {T : Temps} {r : Tab} {p va a : Nat} (hroot : root s T r = some p) (htop : KernelTop s T r)
    (ha : phys s p readable va = some a) : own s T (.user r (va / PGSIZE)) = some (pgRoundDown a) := by
  obtain ⟨-, hf, -⟩ := phys_some.mp ha
  rw [(phys_page ha).1]
  rw [← ent_of_root hroot] at hf ⊢
  have hV := hf PTE_V (by decide)
  have hv : va / PGSIZE < USERPAGES := Nat.lt_of_not_le fun hle => by
    have hU := hf PTE_U (by decide)
    rw [htop _ hle] at hU
    cases hU
  simp only [own, hv, if_true, target, hV]

theorem Rep.userTable {L : Layout} {X : Pins} {s : Sys} {T : Temps} {r : Tab} {p : Nat} (h : Rep L X s T) (hroot : root s T r = some p)
    (htop : KernelTop s T r) : UserTable s p := by
  have hnode : ∀ {q}, Within s p q → ∃ d k, d ≤ 2 ∧ nd s T r d k = some q := fun ⟨d, k, hd, hq⟩ =>
    ⟨d, k, hd, by rw [nd_of_root hroot, hq]⟩
  have hown : ∀ va a, phys s p readable va = some a → own s T (.user r (va / PGSIZE)) = some (pgRoundDown a) :=
    fun va a ha => own_of_phys hroot htop ha
  refine ⟨(h.stock_nd (Nat.zero_le 2) (show nd s T r 0 0 = some p from hroot)).1, fun q hq => ?_, fun va a ha => ?_,
    fun va va' a a' ha ha' he => ?_⟩
  · obtain ⟨d, k, hd, hn⟩ := hnode hq
    exact (h.stock_nd hd hn).ne_zero
  · refine ⟨(h.stock (hown va a ha)).ne_zero, fun hw => ?_⟩
    obtain ⟨d, k, hd, hn⟩ := hnode hw
    exact h.not_node (hown va a ha) nofun hd hn
  · have h1 := hown va a ha
    rw [he] at h1
    have := h.inj h1 (hown va' a' ha')
    injection this

theorem forked_userTable : UserTable forkedSys (forkedSys.proc ⟨1, by decide⟩).pagetable := by
  have hinv := inv_reach forkedSys_reachable
  have hused := forkedSys_child.1
  obtain ⟨hroot, hsp⟩ := hinv.space hused
  exact hinv.rep.userTable hroot hsp.kernelTop

theorem user_copies_forked : ∃ t, copyout (forkedSys.proc ⟨1, by decide⟩).pagetable 4095 [1, 2, 3] forkedSys = .ok 0 t ∧
    copyin (forkedSys.proc ⟨1, by decide⟩).pagetable 4095 3 t = .ok (0, [1, 2, 3]) t := by
  obtain ⟨hout, -, -, hback⟩ := user_copies forked_userTable
  obtain ⟨r, t, hrun, -, hr, -⟩ := hout 4095 [1, 2, 3]
  have hmap : ∀ i < 3, (phys forkedSys (forkedSys.proc ⟨1, by decide⟩).pagetable writable (4095 + i)).isSome := by
    decide +kernel
  obtain rfl := hr.mpr hmap
  exact ⟨t, hrun, hback 4095 [1, 2, 3] t hrun⟩

/-- A page that is not a user page of the table keeps its contents. -/
theorem Delivered.page {s t : Sys} {T : Temps} {r : Tab} {p va pa : Nat} {l : List UInt8} (hd : Delivered s t p va l)
    (hroot : root s T r = some p) (htop : KernelTop s T r) (hal : pa % PGSIZE = 0)
    (hpa : ∀ v, own s T (.user r v) ≠ some pa) : t.page pa = s.page pa := by
  refine funext fun i => ?_
  have hdown : pgRoundDown (pa + i) = pa := pgRoundDown_add hal i.isLt
  have hmod : (pa + i) % PGSIZE = i := by
    have hi := i.isLt
    simp only [PGSIZE] at hal hi ⊢
    omega
  have hbyte := hd.frame (pa + i) fun j _ hj => hpa _ (by rw [own_of_phys hroot htop (phys_readable hj), hdown])
  simp only [Sys.byte, hdown, hmod, Bytes.get, i.isLt, dif_pos] at hbyte
  exact hbyte

/-- What the kernel copies out to a process goes to user pages of that process: every other page is as before, so no
    other process sees a change. -/
theorem copyout_isolated {L : Layout} {s : Sys} (h : Reachable L s) (i : Slot) (hi : (s.proc i).state ≠ .unused) (va : Nat)
    (src : List UInt8) : ∃ r t, copyout (s.proc i).pagetable va src s = .ok r t ∧ t = { s with page := t.page } ∧
      (∀ pa, pa % PGSIZE = 0 → (∀ v, own s Temps.empty (.user (some i) v) ≠ some pa) → t.page pa = s.page pa) ∧
      ∀ j, j ≠ i → (s.proc j).state ≠ .unused → ∀ w,
        userByte t (s.proc j).pagetable w = userByte s (s.proc j).pagetable w := by
  have hinv := inv_reach h
  obtain ⟨hroot, hsp⟩ := hinv.space hi
  obtain ⟨r, t, hrun, k, -, -, hd, -⟩ := (hinv.rep.userTable hroot hsp.kernelTop).copied va src
  have hpage : ∀ pa, pa % PGSIZE = 0 → (∀ v, own s Temps.empty (.user (some i) v) ≠ some pa) → t.page pa = s.page pa :=
    fun _ => hd.page hroot hsp.kernelTop
  refine ⟨r, t, hrun, hd.rest, hpage, fun j hji hj w => ?_⟩
  obtain ⟨hroot', hsp'⟩ := hinv.space hj
  have htab := hinv.rep.userTable hroot' hsp'.kernelTop
  have hsame : Same s t (s.proc j).pagetable := same_of_pages fun q hq => by
    obtain ⟨d, k, hd, hn⟩ := hq
    refine hpage q (htab.within_aligned ⟨d, k, hd, hn⟩) fun v hv => ?_
    exact hinv.rep.not_node hv Owner.data_user hd (by rw [nd_of_root hroot', hn])
  unfold userByte
  rw [hsame.phys]
  cases ha : phys s (s.proc j).pagetable readable w with
  | none => rfl
  | some a =>
    have hown := own_of_phys hroot' hsp'.kernelTop ha
    have hsaved := hpage (pgRoundDown a) (hinv.rep.stock hown).1 fun v hv => by
      have hu := hinv.rep.inj hv hown
      injection hu with htab
      exact hji (Option.some.inj htab).symm
    simp only [Option.map_some, Option.getD_some, Sys.byte, hsaved]

theorem copyout_isolated_forked : ∃ r t, copyout (forkedSys.proc ⟨1, by decide⟩).pagetable 4095 [1, 2, 3] forkedSys = .ok r t ∧
    ∀ w, userByte t (forkedSys.proc ⟨0, by decide⟩).pagetable w =
      userByte forkedSys (forkedSys.proc ⟨0, by decide⟩).pagetable w := by
  obtain ⟨r, t, hrun, -, -, hother⟩ :=
    copyout_isolated forkedSys_reachable ⟨1, by decide⟩ forkedSys_child.1 4095 [1, 2, 3]
  exact ⟨r, t, hrun, hother ⟨0, by decide⟩ (by decide) (by decide +kernel)⟩

end Xv6.Vm
