import Xv6.Umalloc.Heap

/-! `malloc` over the free list, and the integrity of the heap along every sequence of calls. -/

namespace Xv6.Umalloc
open Lib

section
variable {s : Heap} {fl live pre post : List Block} {b c : Block} {n : Nat}

/-! ### Taking a block out of the list -/

theorem Ready.mem_free (_ : Ready s fl live) (hn : ⟨s.base, 0⟩ :: fl = pre ++ c :: b :: post) : b ∈ fl := by
  cases pre with
  | nil => cases hn; simp
  | cons a pre => cases hn; simp

def Got (n : Nat) (s t : Heap) (live : List Block) : Prop :=
  ∃ fl x, t.ret = x.addr + 16 ∧ x.units = n ∧ t.live = x :: s.live ∧ Ready t fl (x :: live)

theorem Ready.unlink (h : Ready s fl live) (hn : ⟨s.base, 0⟩ :: fl = pre ++ c :: b :: post) :
    ∃ fl', Ready { s with mem := Function.update s.mem c.addr ⟨first s.base post, c.units⟩, freep := c.addr }
      fl' (b :: live) := by
  have hlinks := h.links
  have happart := h.apart
  have htiles := h.tiles
  have hb := h.mem_free hn
  rw [hn] at hlinks happart htiles
  obtain ⟨hlinkPre, -, -, hlinkPost⟩ := linked_append.mp hlinks
  obtain ⟨-, hcb, hpre⟩ := List.pairwise_append.mp happart
  have hcb' := (List.pairwise_cons.mp hcb).1
  have hc : c ∈ (⟨s.base, 0⟩ :: fl : List Block) := by rw [hn]; simp
  obtain ⟨fl', hfl'⟩ : ∃ fl', pre ++ c :: post = ⟨s.base, 0⟩ :: fl' := by
    cases pre with
    | nil => exact ⟨post, by cases hn; rfl⟩
    | cons a pre => exact ⟨pre ++ c :: post, by cases hn; rfl⟩
  have hsub : List.Sublist fl' fl := by
    have hs : (pre ++ c :: post).Sublist (pre ++ c :: b :: post) :=
      .append_left (.cons_cons c (.cons b (.refl post))) pre
    rw [hfl', ← hn] at hs
    exact List.cons_sublist_cons.mp hs
  refine ⟨fl', ?_, ?_, ⟨c, by rw [← hfl']; simp, rfl⟩, ?_, fun z hz => ?_, fun z hz => ?_, h.above, h.base, h.count⟩
  · rw [← hfl']
    refine linked_append.mpr ⟨hlinkPre.congr fun a ha => ?_, Function.update_self .., hlinkPost.congr fun a ha => ?_⟩
    · have := hpre a ha c List.mem_cons_self
      unfold Span.stop at this
      exact Function.update_of_ne (by omega) ..
    · have := hcb' a (List.mem_cons_of_mem _ ha)
      unfold Span.stop at this
      exact Function.update_of_ne (by omega) ..
  · exact h.apart.sublist (.cons_cons _ hsub)
  · rw [← hfl']
    refine htiles.perm ?_
    rw [List.append_assoc, List.append_assoc]
    exact .append_left pre (.cons c List.perm_middle.symm)
  · simp only [List.mem_append, List.mem_cons] at hz
    rcases hz with hz | rfl | hz
    · exact h.pos z (List.mem_append_left _ (hsub.subset hz))
    · exact h.pos z (List.mem_append_left _ hb)
    · exact h.pos z (List.mem_append_right _ hz)
  · rcases List.mem_cons.mp hz with rfl | hz
    · have hne := hcb' z List.mem_cons_self
      unfold Span.stop at hne
      simp only [size]
      rw [Function.update_of_ne (by omega)]
      exact h.links.size (List.mem_cons_of_mem _ hb)
    · simp only [size]
      rw [Function.update_of_ne (h.node_ne_live hc hz).symm]
      exact h.headers z hz

theorem Ready.cut (h : Ready s fl live) (hn : ⟨s.base, 0⟩ :: fl = pre ++ c :: b :: post) (rest : Nat)
    (hb : b.units = rest + n) (hrest : 0 < rest) (hn0 : 0 < n) (q : Header) (hq : q.size = n) :
    ∃ fl', Ready { s with
        mem := Function.update (Function.update s.mem b.addr ⟨first s.base post, rest⟩) (b.addr + 16 * rest) q
        freep := c.addr } fl' (⟨b.addr + 16 * rest, n⟩ :: live) := by
  have hlinks := h.links
  have happart := h.apart
  have htiles := h.tiles
  have hbfl := h.mem_free hn
  rw [hn] at hlinks happart htiles
  obtain ⟨hlinkPre, hlinkC, -, hlinkPost⟩ := linked_append.mp hlinks
  obtain ⟨happPre, hcb, hpre⟩ := List.pairwise_append.mp happart
  obtain ⟨hcb', hbpost⟩ := List.pairwise_cons.mp hcb
  obtain ⟨hbpost', happPost⟩ := List.pairwise_cons.mp hbpost
  have hstop : b.stop 16 = b.addr + 16 * rest + 16 * n := by unfold Span.stop; omega
  obtain ⟨fl', hfl'⟩ : ∃ fl', pre ++ c :: ⟨b.addr, rest⟩ :: post = ⟨s.base, 0⟩ :: fl' := by
    cases pre with
    | nil => exact ⟨⟨b.addr, rest⟩ :: post, by cases hn; rfl⟩
    | cons a pre => exact ⟨pre ++ c :: ⟨b.addr, rest⟩ :: post, by cases hn; rfl⟩
  have hcltb := hcb' b List.mem_cons_self
  have happart' : List.Pairwise (fun a b : Block => a.stop 16 < b.addr) (⟨s.base, 0⟩ :: fl') := by
    rw [← hfl']
    refine List.pairwise_append.mpr ⟨happPre, List.pairwise_cons.mpr ⟨fun a ha => ?_, List.pairwise_cons.mpr
      ⟨fun a ha => ?_, happPost⟩⟩, fun a ha e he => ?_⟩
    · rcases List.mem_cons.mp ha with rfl | ha
      · exact hcltb
      · exact hcb' a (List.mem_cons_of_mem _ ha)
    · have := hbpost' a ha
      rw [hstop] at this
      unfold Span.stop
      simp only
      omega
    · simp only [List.mem_cons] at he
      rcases he with rfl | rfl | he
      · exact hpre a ha _ (by simp)
      · exact hpre a ha b (by simp)
      · exact hpre a ha e (by simp [he])
  refine ⟨fl', ?_, happart', ⟨c, by rw [← hfl']; simp, rfl⟩, ?_, fun z hz => ?_, fun z hz => ?_, h.above, h.base,
    h.count⟩
  · -- the new header lies inside of `b`, where no other block starts
    rw [← hfl']
    have hlow : ∀ a : Block, a.stop 16 < b.addr → Function.update (Function.update s.mem b.addr
        ⟨first s.base post, rest⟩) (b.addr + 16 * rest) q a.addr = s.mem a.addr := fun a ha => by
      unfold Span.stop at ha
      rw [Function.update_of_ne (by omega), Function.update_of_ne (by omega)]
    have hhead : Function.update (Function.update s.mem b.addr ⟨first s.base post, rest⟩) (b.addr + 16 * rest) q b.addr =
        ⟨first s.base post, rest⟩ := by
      rw [Function.update_of_ne (by omega), Function.update_self]
    have hhigh : ∀ a ∈ post, Function.update (Function.update s.mem b.addr ⟨first s.base post, rest⟩)
        (b.addr + 16 * rest) q a.addr = s.mem a.addr := fun a ha => by
      have := hbpost' a ha
      rw [hstop] at this
      rw [Function.update_of_ne (by omega), Function.update_of_ne (by omega)]
    exact linked_append.mpr ⟨hlinkPre.congr fun a ha => hlow a (hpre a ha b (by simp)),
      (hlow c hcltb).trans hlinkC, hhead, hlinkPost.congr hhigh⟩
  · rw [← hfl']
    have hperm : ((pre ++ c :: b :: post) ++ live).Perm (b :: ((pre ++ c :: post) ++ live)) := by
      rw [List.append_assoc, List.append_assoc]
      exact (List.Perm.append_left pre (.swap b c _)).trans List.perm_middle
    have hcut := htiles.perm hperm
    rw [show b = ⟨b.addr, rest + n⟩ by rw [← hb]] at hcut
    refine hcut.split.perm ?_
    have hput : (⟨b.addr, rest⟩ :: (pre ++ c :: post)).Perm (pre ++ c :: ⟨b.addr, rest⟩ :: post) := by
      simpa using (@List.perm_middle _ (⟨b.addr, rest⟩ : Block) (pre ++ [c]) post).symm
    exact (List.Perm.swap _ _ _).trans ((List.Perm.cons _ (hput.append_right live)).trans List.perm_middle.symm)
  · simp only [List.mem_append, List.mem_cons] at hz
    rcases hz with hz | rfl | hz
    · have hmem : z ∈ pre ++ c :: ⟨b.addr, rest⟩ :: post := by rw [hfl']; exact List.mem_cons_of_mem _ hz
      by_cases hzb : z = ⟨b.addr, rest⟩
      · rw [hzb]; exact hrest
      · have hzn : z ∈ (⟨s.base, 0⟩ :: fl : List Block) := by
          rw [hn]
          simp only [List.mem_append, List.mem_cons] at hmem ⊢
          tauto
        rcases List.mem_cons.mp hzn with rfl | hzf
        · exact absurd ((List.pairwise_cons.mp happart').1 _ hz) (Nat.lt_irrefl _)
        · exact h.pos z (List.mem_append_left _ hzf)
    · exact hn0
    · exact h.pos z (List.mem_append_right _ hz)
  · rcases List.mem_cons.mp hz with rfl | hz
    · simp only [size]
      rw [Function.update_self]
      exact hq
    · have hd := (List.pairwise_append.mp h.tiles.disjoint).2.2 b (List.mem_cons_of_mem _ hbfl) z hz
      have hz0 := Span.addr_lt_stop (u := 16) (by decide) (h.pos z (List.mem_append_right _ hz))
      have hne := h.node_ne_live (List.mem_cons_of_mem _ hbfl) hz
      have hne' : z.addr ≠ b.addr + 16 * rest := by
        rcases hd with hd | hd <;> omega
      simp only [size]
      rw [Function.update_of_ne hne', Function.update_of_ne hne.symm]
      exact h.headers z hz

theorem Ready.carve (h : Ready s fl live) (hn : ⟨s.base, 0⟩ :: fl = pre ++ c :: b :: post) (hle : n ≤ b.units)
    (hn0 : 0 < n) : Got n s (carve s n c.addr b.addr) live := by
  have hlinks := h.links
  rw [hn] at hlinks
  have hsize : size s b.addr = b.units := hlinks.size (by simp)
  have hptr : ptr s b.addr = first s.base post := Linked.ptr (l := pre ++ [c]) (by simpa using hlinks)
  unfold Umalloc.carve
  rw [hsize, hptr]
  by_cases heq : b.units = n
  · rw [if_pos heq]
    obtain ⟨fl', hready⟩ := h.unlink hn
    refine ⟨fl', b, rfl, heq, by rw [← heq], ?_⟩
    have hc : s.mem c.addr = ⟨b.addr, c.units⟩ := (linked_append.mp hlinks).2.1
    simp only [setPtr, hc]
    exact ⟨hready.links, hready.apart, hready.freep, hready.tiles, hready.pos, hready.headers, hready.above,
      hready.base, hready.count⟩
  · rw [if_neg heq]
    obtain ⟨fl', hready⟩ := h.cut (n := n) hn (b.units - n) (by omega) (by omega) hn0
      ⟨ptr (setSize s b.addr (b.units - n)) (b.addr + 16 * (b.units - n)), n⟩ rfl
    refine ⟨fl', ⟨b.addr + 16 * (b.units - n), n⟩, rfl, rfl, rfl, ?_⟩
    have hb : s.mem b.addr = ⟨first s.base post, b.units⟩ := by
      rw [← hptr, ← hsize]
      rfl
    have hmem : (setSize (setSize s b.addr (b.units - n)) (b.addr + 16 * (b.units - n)) n).mem =
        Function.update (Function.update s.mem b.addr ⟨first s.base post, b.units - n⟩) (b.addr + 16 * (b.units - n))
          ⟨ptr (setSize s b.addr (b.units - n)) (b.addr + 16 * (b.units - n)), n⟩ := by
      rw [mem_setSize, mem_setSize, hptr]
    exact ⟨by rw [hmem]; exact hready.links, hready.apart, hready.freep, hready.tiles, hready.pos,
      fun z hz => by rw [size, hmem]; exact hready.headers z hz, hready.above, hready.base, hready.count⟩

theorem Ready.before (h : Ready s fl live) (hc : c ∈ (⟨s.base, 0⟩ :: fl : List Block)) (hb : b ∈ fl)
    (hptr : ptr s c.addr = b.addr) : ∃ pre post, ⟨s.base, 0⟩ :: fl = pre ++ c :: b :: post := by
  obtain ⟨pre, post, hn⟩ := List.append_of_mem hc
  have hlinks := h.links
  have happart := h.apart
  rw [hn] at hlinks happart
  rw [hlinks.ptr] at hptr
  cases post with
  | nil =>
    have := h.base_le (List.mem_append_left live hb)
    simp only [first_nil] at hptr
    omega
  | cons d post =>
    rw [first_cons] at hptr
    have hd : d ∈ fl := h.mem_free hn
    -- two free blocks at one address are the same
    have hpair := (List.pairwise_cons.mp h.apart).2
    have hdb : d = b := by
      obtain ⟨l, l', hl⟩ := List.append_of_mem hd
      rw [hl] at hpair hb
      obtain ⟨-, hafter, hbefore⟩ := List.pairwise_append.mp hpair
      rcases List.mem_append.mp hb with hb | hb
      · have := hbefore b hb d List.mem_cons_self
        unfold Span.stop at this
        omega
      · rcases List.mem_cons.mp hb with rfl | hb
        · rfl
        · have := (List.pairwise_cons.mp hafter).1 b hb
          unfold Span.stop at this
          omega
    exact ⟨pre, post, by rw [hn, hdb]⟩

/-! ### The loop of `malloc` -/

def more (brk : Nat → Option Nat) (n k : Nat) (s : Heap) : Option Heap :=
  match morecore s brk k n with
  | none => none
  | some (s, 0) => some { s with ret := 0 }
  | some (s, p) => search brk n k s p (ptr s p)

theorem search_scan {f : Block} {z : Nat} (brk : Nat → Option Nat) (m : List Block) (prev k : Nat)
    (hl : Linked s.mem z (m ++ [f])) (hprev : ptr s prev = first z (m ++ [f])) (hm : ∀ b ∈ m, b.addr ≠ s.freep)
    (hf : f.addr = s.freep) (hk : m.length < k) :
    (∃ b ∈ m ++ [f], n ≤ b.units ∧ ∃ p, (p = prev ∨ ∃ c ∈ m, p = c.addr) ∧ ptr s p = b.addr ∧
      search brk n k s prev (first z (m ++ [f])) = some (carve s n p b.addr)) ∨
    ((∀ b ∈ m ++ [f], b.units < n) ∧
      search brk n k s prev (first z (m ++ [f])) = more brk n (k - m.length - 1) s) := by
  induction m generalizing prev k with
  | nil =>
    obtain ⟨k, rfl⟩ := Nat.exists_eq_succ_of_ne_zero (Nat.ne_of_gt hk)
    have hsize : size s f.addr = f.units := hl.size (by simp)
    by_cases hle : n ≤ f.units
    · refine .inl ⟨f, by simp, hle, prev, .inl rfl, hprev, ?_⟩
      simp only [List.nil_append, first_cons, search, hsize, if_pos hle]
    · refine .inr ⟨by simpa using hle, ?_⟩
      rw [List.nil_append, first_cons, search, hsize, if_neg hle, if_pos hf]
      rfl
  | cons a m ih =>
    obtain ⟨k, rfl⟩ := Nat.exists_eq_succ_of_ne_zero (show k ≠ 0 by rw [List.length_cons] at hk; omega)
    have hsize : size s a.addr = a.units := hl.size (by simp)
    have hptr : ptr s a.addr = first z (m ++ [f]) := Linked.ptr (l := []) hl
    by_cases hle : n ≤ a.units
    · refine .inl ⟨a, by simp, hle, prev, .inl rfl, hprev, ?_⟩
      simp only [List.cons_append, first_cons, search, hsize, if_pos hle]
    · have hstep : search brk n (k + 1) s prev (first z (a :: m ++ [f])) =
          search brk n k s a.addr (first z (m ++ [f])) := by
        simp only [List.cons_append, first_cons, search, hsize, if_neg hle, if_neg (hm a List.mem_cons_self), hptr]
      rcases ih a.addr k hl.2 hptr (fun b hb => hm b (List.mem_cons_of_mem _ hb)) (by simpa using hk) with
        ⟨b, hb, hnb, p, hp, hpb, heq⟩ | ⟨hsmall, heq⟩
      · refine .inl ⟨b, List.mem_cons_of_mem _ hb, hnb, p, .inr ?_, hpb, hstep.trans heq⟩
        rcases hp with rfl | ⟨c, hc, rfl⟩
        · exact ⟨a, List.mem_cons_self, rfl⟩
        · exact ⟨c, List.mem_cons_of_mem _ hc, rfl⟩
      · refine .inr ⟨fun b hb => ?_, ?_⟩
        · rcases List.mem_cons.mp hb with rfl | hb
          · exact Nat.lt_of_not_le hle
          · exact hsmall b hb
        · rw [hstep, heq, List.length_cons, Nat.succ_sub_succ]

theorem Ready.pass (h : Ready s fl live) (brk : Nat → Option Nat) (hn0 : 0 < n) {k : Nat} (hk : fl.length < k) :
    (∃ t, search brk n k s s.freep (ptr s s.freep) = some t ∧ Got n s t live) ∨
    ((∀ b ∈ fl, b.units < n) ∧ search brk n k s s.freep (ptr s s.freep) = more brk n (k - fl.length - 1) s) := by
  obtain ⟨f, hf, hfreep⟩ := h.freep
  obtain ⟨l, l', hl⟩ := List.append_of_mem hf
  have htour : Linked s.mem (first 0 ((l' ++ l) ++ [f])) ((l' ++ l) ++ [f]) := by
    rw [List.append_assoc]
    refine Linked.rotate ?_
    rw [List.append_assoc, List.singleton_append, ← hl]
    exact h.links
  have hlen : (l' ++ l).length = fl.length := by
    have := congrArg List.length hl
    simp only [List.length_cons, List.length_append] at this ⊢
    omega
  have hmem : ∀ b, b ∈ (l' ++ l) ++ [f] ↔ b ∈ (⟨s.base, 0⟩ :: fl : List Block) := fun b => by
    rw [hl]
    simp only [List.mem_append, List.mem_cons, List.not_mem_nil, or_false]
    tauto
  have hptr : ptr s f.addr = first (first 0 ((l' ++ l) ++ [f])) ((l' ++ l) ++ [f]) := by
    rw [Linked.ptr (r := []) htour, first_nil]
    cases (l' ++ l) <;> rfl
  have hne : ∀ b ∈ l' ++ l, b.addr ≠ s.freep := fun b hb => by
    have happart := h.apart
    rw [hl] at happart
    obtain ⟨-, hafter, hbefore⟩ := List.pairwise_append.mp happart
    rw [← hfreep]
    rcases List.mem_append.mp hb with hb | hb
    · have := (List.pairwise_cons.mp hafter).1 b hb
      unfold Span.stop at this
      omega
    · have := hbefore b hb f List.mem_cons_self
      unfold Span.stop at this
      omega
  have hscan := search_scan (n := n) brk (l' ++ l) s.freep k htour (hfreep ▸ hptr) hne hfreep (by omega)
  rw [← hptr, hfreep, hlen] at hscan
  rcases hscan with ⟨b, hb, hle, p, hp, hpb, heq⟩ | ⟨hsmall, heq⟩
  · left
    have hbfl : b ∈ fl := by
      refine (List.mem_cons.mp ((hmem b).mp hb)).resolve_left fun h0 => ?_
      rw [h0] at hle
      simp only at hle
      omega
    obtain ⟨c, hc, rfl⟩ : ∃ c ∈ (⟨s.base, 0⟩ :: fl : List Block), p = c.addr := by
      rcases hp with rfl | ⟨c, hc, rfl⟩
      · exact ⟨f, hf, hfreep.symm⟩
      · exact ⟨c, (hmem c).mp (List.mem_append_left _ hc), rfl⟩
    obtain ⟨pre, post, hn⟩ := h.before hc hbfl hpb
    exact ⟨_, heq, h.carve hn hle hn0⟩
  · exact .inr ⟨fun b hb => hsmall b ((hmem b).mpr (List.mem_cons_of_mem _ hb)), heq⟩

theorem Ready.region (h : Ready s fl live) (gap nu : Nat) (hnu : 0 < nu) (hcount : obtained s + nu < 2 ^ 32) :
    Ready (setSize { s with top := s.top + gap + 16 * nu, regions := ⟨s.top + gap, nu⟩ :: s.regions } (s.top + gap) nu)
      fl (⟨s.top + gap, nu⟩ :: live) := by
  have hnode : ∀ b ∈ (⟨s.base, 0⟩ :: fl : List Block), b.stop 16 ≤ s.top ∧ b.addr < s.top := fun b hb => by
    have := h.base.2
    rcases List.mem_cons.mp hb with rfl | hb
    · unfold Span.stop
      simp only
      omega
    · have hle := h.below (List.mem_append_left live hb)
      have hlt := Span.addr_lt_stop (u := 16) (by decide) (h.pos b (List.mem_append_left live hb))
      omega
  have hlive : ∀ x ∈ live, x.stop 16 ≤ s.top ∧ x.addr < s.top := fun x hx => by
    have hle := h.below (List.mem_append_right fl hx)
    have hlt := Span.addr_lt_stop (u := 16) (by decide) (h.pos x (List.mem_append_right fl hx))
    omega
  refine ⟨h.links.congr fun b hb => ?_, h.apart, h.freep, ?_, fun b hb => ?_, fun x hx => ?_, fun r hr => ?_, ?_, ?_⟩
  · have := (hnode b hb).2
    exact Function.update_of_ne (by omega) ..
  · refine (h.tiles.grow fun b hb => .inr ?_).perm List.perm_middle.symm
    have hb' : b.stop 16 ≤ s.top := by
      rcases List.mem_append.mp hb with hb | hb
      · exact (hnode b hb).1
      · exact (hlive b hb).1
    exact Nat.le_add_right_of_le hb'
  · simp only [List.mem_append, List.mem_cons] at hb
    rcases hb with hb | rfl | hb
    · exact h.pos b (List.mem_append_left _ hb)
    · exact hnu
    · exact h.pos b (List.mem_append_right _ hb)
  · simp only [size, mem_setSize]
    rcases List.mem_cons.mp hx with rfl | hx
    · rw [Function.update_self]
    · have := (hlive x hx).2
      rw [Function.update_of_ne (by omega)]
      exact h.headers x hx
  · have := h.base
    simp only [setSize] at hr ⊢
    rcases List.mem_cons.mp hr with rfl | hr
    · unfold Span.stop
      simp only
      omega
    · have := h.above r hr
      omega
  · have := h.base
    simp only [setSize]
    omega
  · unfold obtained at hcount ⊢
    simp only [setSize, List.map_cons, List.sum_cons]
    omega

theorem Ready.freep_pos (h : Ready s fl live) : s.freep ≠ 0 := by
  obtain ⟨b, hb, he⟩ := h.freep
  have := h.node_le hb
  have := h.base
  omega

theorem Ready.more (h : Ready s fl live) (brk : Nat → Option Nat) (hn0 : 0 < n)
    (hcount : obtained s + max n 4096 < 2 ^ 32) {k : Nat} (hk : fl.length + 1 < k) :
    ∃ t, more brk n k s = some t ∧
      (Got n s t live ∨ (t.ret = 0 ∧ t.live = s.live ∧ Ready t fl live ∧ t.regions = s.regions)) := by
  have hmax : (if n < 4096 then 4096 else n) = max n 4096 := by split <;> omega
  unfold Umalloc.more morecore sbrk
  simp only [hmax]
  cases hbrk : brk s.top with
  | none =>
    refine ⟨_, rfl, .inr ⟨rfl, rfl, ?_, rfl⟩⟩
    exact ⟨h.links, h.apart, h.freep, h.tiles, h.pos, h.headers, h.above, h.base, h.count⟩
  | some gap =>
    have hreg := h.region gap (max n 4096) (by omega) hcount
    obtain ⟨t, fl', hfree, hready, hlen, ⟨b, hb, hbig⟩, hlive, -, -⟩ := hreg.free (k := k) (by omega)
    simp only [Option.map_some, hfree]
    obtain ⟨p, hp⟩ := Nat.exists_eq_succ_of_ne_zero hready.freep_pos
    have hpass := hready.pass (n := n) brk hn0 (k := k) (by omega)
    rcases hpass with ⟨u, hsearch, fl'', x, hret, hx, hulive, hu⟩ | ⟨hsmall, -⟩
    · refine ⟨u, ?_, .inl ⟨fl'', x, hret, hx, by rw [hulive, hlive]; rfl, hu⟩⟩
      rw [hp] at hsearch ⊢
      exact hsearch
    · have := hsmall b hb
      simp only at hbig
      omega

theorem place_mono {bp : Nat} {k j p q : Nat} (h : place s bp k p = some q) (hkj : k ≤ j) : place s bp j p = some q := by
  induction k generalizing j p with
  | zero => cases h
  | succ k ih =>
    obtain ⟨j, rfl⟩ := Nat.exists_eq_succ_of_ne_zero (show j ≠ 0 by omega)
    rw [place] at h ⊢
    split at h
    · rename_i hfit
      rw [if_pos hfit]
      exact h
    · rename_i hfit
      rw [if_neg hfit]
      exact ih h (by omega)

theorem free_mono {t : Heap} {k j ap : Nat} (h : free s k ap = some t) (hkj : k ≤ j) : free s j ap = some t := by
  obtain ⟨p, hp, ht⟩ := Option.map_eq_some_iff.mp h
  exact Option.map_eq_some_iff.mpr ⟨p, place_mono hp hkj, ht⟩

theorem morecore_mono {brk : Nat → Option Nat} {k j : Nat} {r : Heap × Nat} (h : morecore s brk k n = some r)
    (hkj : k ≤ j) : morecore s brk j n = some r := by
  unfold morecore at h ⊢
  simp only at h ⊢
  split at h
  · exact h
  · obtain ⟨t, ht, hr⟩ := Option.map_eq_some_iff.mp h
    exact Option.map_eq_some_iff.mpr ⟨t, free_mono ht hkj, hr⟩

theorem search_mono {brk : Nat → Option Nat} {t : Heap} {k j prev p : Nat} (h : search brk n k s prev p = some t)
    (hkj : k ≤ j) : search brk n j s prev p = some t := by
  induction k generalizing s j prev p with
  | zero => cases h
  | succ k ih =>
    obtain ⟨j, rfl⟩ := Nat.exists_eq_succ_of_ne_zero (show j ≠ 0 by omega)
    rw [search] at h ⊢
    by_cases hle : n ≤ size s p
    · rw [if_pos hle] at h ⊢
      exact h
    rw [if_neg hle] at h ⊢
    by_cases hp : p = s.freep
    · rw [if_pos hp] at h ⊢
      cases hm : morecore s brk k n with
      | none => rw [hm] at h; cases h
      | some r =>
        obtain ⟨u, q⟩ := r
        rw [morecore_mono hm (show k ≤ j by omega)]
        rw [hm] at h
        cases q with
        | zero => exact h
        | succ q => exact ih h (by omega)
    · rw [if_neg hp] at h ⊢
      exact ih h (by omega)

/-! ### Sequences of calls -/

theorem Ready.perm (h : Ready s fl live) {live' : List Block} (hp : live.Perm live') : Ready s fl live' :=
  ⟨h.links, h.apart, h.freep, h.tiles.perm (.append_left _ hp), fun b hb => h.pos b (by
    simpa only [List.mem_append, hp.mem_iff] using hb), fun x hx => h.headers x (hp.mem_iff.mpr hx), h.above, h.base,
    h.count⟩

def Inv (s : Heap) : Prop :=
  (s.freep = 0 ∧ s.live = [] ∧ s.regions = [] ∧ 0 < s.base ∧ s.base + 16 ≤ s.top) ∨ ∃ fl, Ready s fl s.live

theorem Start.inv (h : Start s) : Inv s := .inl ⟨h.freep, h.live, h.regions, h.base, h.top⟩

theorem Inv.setup (h : Inv s) :
    ∃ fl, Ready (setup s) fl s.live ∧ (setup s).live = s.live ∧ obtained (setup s) = obtained s := by
  rcases h with ⟨hfreep, hlive, hregions, hbase, htop⟩ | ⟨fl, h⟩
  · refine ⟨[], ?_, ?_, ?_⟩
    · unfold Umalloc.setup
      rw [if_pos hfreep, hlive]
      refine ⟨⟨?_, trivial⟩, List.pairwise_singleton .., ⟨_, List.mem_cons_self, rfl⟩, ?_, by rintro _ ⟨⟩, by rintro _ ⟨⟩, ?_, ⟨hbase, htop⟩, ?_⟩
      · simp [setSize, setPtr, first_nil]
      · simp only [setSize, setPtr, hregions, List.append_nil]
        exact (Tiling.nil 16).cons_empty (by rintro _ ⟨⟩)
      · simp only [setSize, setPtr, hregions]
        rintro _ ⟨⟩
      · simp [setSize, setPtr, obtained, hregions]
    · unfold Umalloc.setup
      rw [if_pos hfreep]
      rfl
    · unfold Umalloc.setup
      rw [if_pos hfreep]
      rfl
  · have heq : Umalloc.setup s = s := if_neg h.freep_pos
    rw [heq]
    exact ⟨fl, h, rfl, rfl⟩

theorem Inv.malloc (h : Inv s) {nbytes : Nat} (brk : Nat → Option Nat) (hcount : obtained s + asked nbytes < 2 ^ 32) :
    ∃ K, ∀ k, K ≤ k → ∃ t, malloc s brk k nbytes = some t ∧ Inv t ∧
      ((t.ret = 0 ∧ t.live = s.live) ∨
        ∃ x, t.ret = x.addr + 16 ∧ t.live = x :: s.live ∧ x.units = Umalloc.units nbytes) := by
  obtain ⟨fl, hready, hlive, hobt⟩ := h.setup
  have hn0 : 0 < Umalloc.units nbytes := Nat.succ_pos _
  have got : ∀ t, Got (Umalloc.units nbytes) (Umalloc.setup s) t s.live → Inv t ∧ ((t.ret = 0 ∧ t.live = s.live) ∨
      ∃ x, t.ret = x.addr + 16 ∧ t.live = x :: s.live ∧ x.units = Umalloc.units nbytes) := by
    rintro t ⟨fl', x, hret, hx, htlive, ht⟩
    rw [hlive] at htlive
    exact ⟨.inr ⟨fl', htlive ▸ ht⟩, .inr ⟨x, hret, htlive, hx⟩⟩
  refine ⟨2 * fl.length + 3, fun k hk => ?_⟩
  unfold Umalloc.malloc
  rcases hready.pass (n := Umalloc.units nbytes) brk hn0 (k := k) (by omega) with ⟨t, hs, hgot⟩ | ⟨-, hs⟩
  · exact ⟨t, hs, got t hgot⟩
  · obtain ⟨t, hmore, hgot | ⟨hret, htlive, ht, -⟩⟩ := hready.more brk hn0 (by rw [hobt]; exact hcount)
      (show fl.length + 1 < k - fl.length - 1 by omega)
    · exact ⟨t, hs.trans hmore, got t hgot⟩
    · rw [hlive] at htlive
      exact ⟨t, hs.trans hmore, .inr ⟨fl, htlive ▸ ht⟩, .inl ⟨hret, htlive⟩⟩

theorem Ready.perm_filter (h : Ready s fl live) {x : Block} (hx : x ∈ live) :
    live.Perm (x :: live.filter fun y => y.addr + 16 ≠ x.addr + 16) := by
  obtain ⟨l, l', rfl⟩ := List.append_of_mem hx
  have hpair := (List.pairwise_append.mp h.tiles.disjoint).2.1
  obtain ⟨-, hafter, hbefore⟩ := List.pairwise_append.mp hpair
  have hx0 : 0 < x.units := h.pos x (by simp)
  have hl : l.filter (fun y => y.addr + 16 ≠ x.addr + 16) = l := List.filter_eq_self.mpr fun y hy => by
    have := (hbefore y hy x List.mem_cons_self).addr_ne (by decide) (h.pos y (by simp [hy])) hx0
    simpa using this
  have hl' : l'.filter (fun y => y.addr + 16 ≠ x.addr + 16) = l' := List.filter_eq_self.mpr fun y hy => by
    have := ((List.pairwise_cons.mp hafter).1 y hy).addr_ne (by decide) hx0 (h.pos y (by simp [hy]))
    simpa using this.symm
  rw [List.filter_append, List.filter_cons_of_neg (by simp), hl, hl']
  exact List.perm_middle

theorem Inv.free (h : Inv s) {x : Block} (hx : x ∈ s.live) :
    ∃ K, ∀ k, K ≤ k → ∃ t, free s k (x.addr + 16) = some t ∧ t.live = s.live ∧
      Inv { t with live := t.live.filter fun y => y.addr + 16 ≠ x.addr + 16 } := by
  rcases h with ⟨-, hlive, -⟩ | ⟨fl, h⟩
  · rw [hlive] at hx
    cases hx
  · refine ⟨fl.length + 1, fun k hk => ?_⟩
    obtain ⟨t, fl', hfree, ht, -, -, hlive, -⟩ := (h.perm (h.perm_filter hx)).free (k := k) (by omega)
    refine ⟨t, hfree, hlive, .inr ⟨fl', ?_⟩⟩
    rw [hlive]
    exact ⟨ht.links, ht.apart, ht.freep, ht.tiles, ht.pos, ht.headers, ht.above, ht.base, ht.count⟩

theorem Inv.malloc_some (h : Inv s) {t : Heap} {nbytes k : Nat} {brk : Nat → Option Nat}
    (hcount : obtained s + asked nbytes < 2 ^ 32) (hs : Umalloc.malloc s brk k nbytes = some t) :
    Inv t ∧ ((t.ret = 0 ∧ t.live = s.live) ∨
      ∃ x, t.ret = x.addr + 16 ∧ t.live = x :: s.live ∧ x.units = Umalloc.units nbytes) := by
  obtain ⟨K, hK⟩ := h.malloc brk hcount
  obtain ⟨u, hu, hres⟩ := hK (max k K) (Nat.le_max_right ..)
  cases (search_mono hs (Nat.le_max_left k K)).symm.trans hu
  exact hres

theorem step_inv {t : Heap} {a : Action} (h : Inv s) (hok : Proper s a ∧ Countable s a) (hs : step s a = .ok t) :
    Inv t := by
  cases a with
  | malloc nbytes brk k =>
    simp only [step] at hs
    split at hs
    · rename_i v hv
      cases hs
      exact (h.malloc_some hok.2 hv).1
    · cases hs
  | free ap k =>
    obtain ⟨⟨x, hx, rfl⟩, -⟩ := hok
    obtain ⟨K, hK⟩ := h.free hx
    obtain ⟨u, hu, -, hinv⟩ := hK (max k K) (Nat.le_max_right ..)
    simp only [step] at hs
    split at hs
    · rename_i v hv
      cases hs
      cases (free_mono hv (Nat.le_max_left k K)).symm.trans hu
      exact hinv
    · cases hs

end

structure Intact (s : Heap) (fl : List Block) : Prop where
  -- `freep` points into a circular list in address order, with a gap after each of its blocks
  links : Linked s.mem s.base (⟨s.base, 0⟩ :: fl)
  freep : ∃ b ∈ (⟨s.base, 0⟩ :: fl : List Block), b.addr = s.freep
  apart : List.Pairwise (fun a b => a.stop 16 < b.addr) (⟨s.base, 0⟩ :: fl)
  -- free and live blocks share out what was obtained, and stay clear of `base`
  tiles : Tiling 16 (fl ++ s.live) s.regions
  clear : ∀ b ∈ fl ++ s.live, 0 < b.units ∧ s.base + 16 ≤ b.addr
  headers : ∀ x ∈ s.live, size s x.addr = x.units

theorem Ready.intact {s : Heap} {fl : List Block} (h : Ready s fl s.live) : Intact s fl where
  links := h.links
  freep := h.freep
  apart := h.apart
  tiles := h.tiles.of_cons_empty
  clear b hb := ⟨h.pos b hb, h.base_le hb⟩
  headers := h.headers

/-- As long as the units obtained can be counted in 32 bits, the heap is intact, `malloc` and `free` return, and what
    `malloc` returns is 0 or a new live block with room enough. -/
theorem heap_intact {s : Heap} (h : Reach Start step (fun s a => Proper s a ∧ Countable s a) s) :
    ((s.freep = 0 ∧ s.live = [] ∧ s.regions = []) ∨ ∃ fl, Intact s fl) ∧
    (∀ nbytes brk, Proper s (.malloc nbytes brk 0) → Countable s (.malloc nbytes brk 0) →
      ∃ K, ∀ k, K ≤ k → ∃ t, step s (.malloc nbytes brk k) = .ok t ∧
        ((t.ret = 0 ∧ t.live = s.live) ∨
          ∃ x, t.ret = x.addr + 16 ∧ t.live = x :: s.live ∧ nbytes ≤ 16 * (x.units - 1))) ∧
    (∀ ap, Proper s (.free ap 0) → ∃ K, ∀ k, K ≤ k → ∃ t, step s (.free ap k) = .ok t ∧
      t.live = s.live.filter fun x => x.addr + 16 ≠ ap) := by
  have hinv : Inv s := Reach.invariant (I := Inv) (fun _ => Start.inv) (fun _ _ _ hi hok hs => step_inv hi hok hs) h
  refine ⟨?_, fun nbytes brk _ hcount => ?_, fun ap hap => ?_⟩
  · rcases hinv with ⟨hfreep, hlive, hregions, -⟩ | ⟨fl, hready⟩
    · exact .inl ⟨hfreep, hlive, hregions⟩
    · exact .inr ⟨fl, hready.intact⟩
  · obtain ⟨K, hK⟩ := hinv.malloc brk hcount
    refine ⟨K, fun k hk => ?_⟩
    obtain ⟨t, ht, -, hres⟩ := hK k hk
    refine ⟨t, by simp only [step, ht], hres.imp_right ?_⟩
    rintro ⟨x, hret, hlive, hx⟩
    refine ⟨x, hret, hlive, ?_⟩
    rw [hx]
    unfold units
    omega
  · obtain ⟨x, hx, rfl⟩ := hap
    obtain ⟨K, hK⟩ := hinv.free hx
    refine ⟨K, fun k hk => ?_⟩
    obtain ⟨t, ht, hlive, -⟩ := hK k hk
    exact ⟨{ t with live := t.live.filter fun y => y.addr + 16 ≠ x.addr + 16 }, by simp only [step, ht],
      by simp only [hlive]⟩

def fresh : Heap where
  mem _ := ⟨0, 0⟩
  base := 16
  freep := 0
  top := 4096
  ret := 0
  regions := []
  live := []

theorem fresh_start : Start fresh := ⟨by decide, rfl, by decide, rfl, rfl⟩

def proper (s : Heap) : Action → Bool
  | .malloc nbytes _ _ => decide (nbytes < 2 ^ 32 ∧ 16 * asked nbytes < 2 ^ 31)
  | .free ap _ => s.live.any fun x => ap = x.addr + 16

def countable (s : Heap) : Action → Bool
  | .malloc nbytes _ _ => decide (obtained s + asked nbytes < 2 ^ 32)
  | .free _ _ => true

theorem proper_sound (s : Heap) (a : Action) (h : proper s a = true) : Proper s a := by
  cases a with
  | malloc nbytes brk k =>
    have hn : nbytes < 2 ^ 32 ∧ 16 * asked nbytes < 2 ^ 31 := of_decide_eq_true h
    exact hn
  | free ap k =>
    obtain ⟨x, hx, he⟩ := List.any_eq_true.mp h
    exact ⟨x, hx, of_decide_eq_true he⟩

theorem countable_sound (s : Heap) (a : Action) (h : countable s a = true) : Countable s a := by
  cases a with
  | malloc nbytes brk k =>
    have hn : obtained s + asked nbytes < 2 ^ 32 := of_decide_eq_true h
    exact hn
  | free ap k => trivial

theorem heap_intact_two : ∃ s fl, Intact s fl ∧ s.live.length = 1 ∧ obtained s = 4096 := by
  have hrun : (run step (fun s a => proper s a && countable s a) fresh
      [.malloc 100 (fun _ => some 0) 10, .malloc 24 (fun _ => some 0) 10, .free 69520 10]).any
      (fun s => decide (s.live.length = 1 ∧ obtained s = 4096 ∧ s.freep ≠ 0)) = true := by decide +kernel
  obtain ⟨s, hs, hlast⟩ := (Option.any_eq_true _ _).mp hrun
  obtain ⟨hlive, hobt, hfreep⟩ := of_decide_eq_true hlast
  have hreach : Reach Start step (fun s a => Proper s a ∧ Countable s a) s := by
    refine Reach.of_run (fun s a hc => ?_) _ (.init fresh_start) hs
    obtain ⟨hp, hq⟩ := Bool.and_eq_true_iff.mp hc
    exact ⟨proper_sound s a hp, countable_sound s a hq⟩
  rcases (heap_intact hreach).1 with ⟨h0, -⟩ | ⟨fl, hfl⟩
  · exact absurd h0 hfreep
  · exact ⟨s, fl, hfl, hlive, hobt⟩

def gib64 : List Action :=
  List.replicate 33 (.malloc (16 * (2 ^ 27 - 2)) (fun _ => some 0) 100) ++
    (List.range 33).map fun i => .free (4096 + 16 * (i * (2 ^ 27 - 1)) + 16) 100

/-- Where more than 2^32 units are obtained, the size of a joined block wraps around, and 2^32 units are missing. -/
theorem units_lost : ∃ s, Reach Start step Proper s ∧ s.live = [] ∧ ptr s (ptr s s.base) = s.base ∧
    size s s.base + size s (ptr s s.base) + 2 ^ 32 = obtained s := by
  have hrun : (run step proper fresh gib64).any (fun s => decide (s.live = [] ∧ ptr s (ptr s s.base) = s.base ∧
      size s s.base + size s (ptr s s.base) + 2 ^ 32 = obtained s)) = true := by decide +kernel
  obtain ⟨s, hs, hlast⟩ := (Option.any_eq_true _ _).mp hrun
  exact ⟨s, Reach.of_run proper_sound _ (.init fresh_start) hs, of_decide_eq_true hlast⟩

/-- A stretch of obtained memory without gaps lies in one free block when all blocks are free: neighbours are joined. -/
theorem Intact.stretch {s : Heap} {fl : List Block} (h : Intact s fl) (hlive : s.live = []) {x : Nat} (n : Nat)
    (hx : ∀ i ≤ n, ∃ r ∈ s.regions, r.Has 16 (x + i)) : ∃ b ∈ fl, ∀ i ≤ n, b.Has 16 (x + i) := by
  have htiles := h.tiles
  rw [hlive, List.append_nil] at htiles
  have hapart := (List.pairwise_cons.mp h.apart).2
  induction n with
  | zero =>
    obtain ⟨b, hb, hbx⟩ := (htiles.cover x).mpr (hx 0 (Nat.le_refl 0))
    exact ⟨b, hb, fun i hi => by rwa [Nat.le_zero.mp hi]⟩
  | succ n ih =>
    obtain ⟨b, hb, hbx⟩ := ih fun i hi => hx i (Nat.le_succ_of_le hi)
    obtain ⟨c, hc, hcx⟩ := (htiles.cover (x + (n + 1))).mpr (hx (n + 1) (Nat.le_refl _))
    have hlast := hbx n (Nat.le_refl n)
    -- another block would leave a gap before or after `b`
    have hbc : b = c := by
      by_contra hne
      have : Std.Symm fun a b : Block => a.stop 16 < b.addr ∨ b.stop 16 < a.addr := ⟨fun _ _ => Or.symm⟩
      have hsep := (hapart.imp (S := fun a b => a.stop 16 < b.addr ∨ b.stop 16 < a.addr) Or.inl).forall hb hc hne
      obtain ⟨hfrom, hto⟩ := hlast
      obtain ⟨hfrom', hto'⟩ := hcx
      omega
    subst hbc
    refine ⟨b, hb, fun i hi => ?_⟩
    rcases Nat.lt_or_eq_of_le hi with hi | rfl
    · exact hbx i (Nat.le_of_lt_succ hi)
    · exact hcx

end Xv6.Umalloc
