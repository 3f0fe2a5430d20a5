import Xv6.Umalloc.Basic

/-! The free list of the allocator, in address order from `base`, whose blocks tile, with the live ones, all memory
    obtained. -/

namespace Xv6.Umalloc
open Lib

section
variable {mem mem' : Nat → Header} {z : Nat} {l l' : List Block}

def first (z : Nat) : List Block → Nat
  | [] => z
  | b :: _ => b.addr

/-- The headers of the blocks hold their sizes and lead from each to the next and from the last to `z`. -/
def Linked (mem : Nat → Header) (z : Nat) : List Block → Prop
  | [] => True
  | b :: l => mem b.addr = ⟨first z l, b.units⟩ ∧ Linked mem z l

theorem first_nil : first z [] = z := rfl

theorem first_cons (b : Block) : first z (b :: l) = b.addr := rfl

theorem first_append : first z (l ++ l') = first (first z l') l := by
  cases l <;> rfl

theorem linked_append : Linked mem z (l ++ l') ↔ Linked mem (first z l') l ∧ Linked mem z l' := by
  induction l with
  | nil => simp [Linked]
  | cons b l ih => simp only [List.cons_append, Linked, ih, first_append, and_assoc]

theorem Linked.congr (h : Linked mem z l) (hm : ∀ b ∈ l, mem' b.addr = mem b.addr) : Linked mem' z l := by
  induction l with
  | nil => trivial
  | cons b l ih =>
    obtain ⟨hb, hl⟩ := h
    exact ⟨(hm b List.mem_cons_self).trans hb, ih hl fun c hc => hm c (List.mem_cons_of_mem _ hc)⟩

theorem Linked.rotate (h : Linked mem (first 0 (l ++ l')) (l ++ l')) :
    Linked mem (first 0 (l' ++ l)) (l' ++ l) := by
  cases l' with
  | nil => rwa [List.append_nil] at h
  | cons b l' =>
    obtain ⟨hl, hl'⟩ := linked_append.mp h
    refine linked_append.mpr ⟨?_, hl⟩
    rw [first_append] at hl'
    exact hl'

end

section
variable {s : Heap} {z : Nat}

theorem mem_setSize (p n : Nat) : (setSize s p n).mem = Function.update s.mem p ⟨ptr s p, n⟩ := rfl

theorem Linked.ptr {b : Block} {l r : List Block} (h : Linked s.mem z (l ++ b :: r)) :
    ptr s b.addr = first z r := by
  rw [Umalloc.ptr, (linked_append.mp h).2.1]

theorem Linked.size {b : Block} {l : List Block} (h : Linked s.mem z l) (hb : b ∈ l) : size s b.addr = b.units := by
  obtain ⟨pre, post, rfl⟩ := List.append_of_mem hb
  rw [Umalloc.size, (linked_append.mp h).2.1]

end

/-- `fl` is the free list, and `live` are the blocks in use. -/
structure Ready (s : Heap) (fl live : List Block) : Prop where
  links : Linked s.mem s.base (⟨s.base, 0⟩ :: fl)
  apart : List.Pairwise (fun a b => a.stop 16 < b.addr) (⟨s.base, 0⟩ :: fl)
  freep : ∃ b ∈ (⟨s.base, 0⟩ :: fl : List Block), b.addr = s.freep
  tiles : Tiling 16 ((⟨s.base, 0⟩ :: fl) ++ live) s.regions
  pos : ∀ b ∈ fl ++ live, 0 < b.units
  headers : ∀ x ∈ live, size s x.addr = x.units
  above : ∀ r ∈ s.regions, s.base + 16 ≤ r.addr ∧ r.stop 16 ≤ s.top
  base : 0 < s.base ∧ s.base + 16 ≤ s.top
  count : obtained s < 2 ^ 32

namespace Ready
variable {s : Heap} {fl live : List Block}

theorem base_le (h : Ready s fl live) {b : Block} (hb : b ∈ fl ++ live) : s.base + 16 ≤ b.addr := by
  obtain ⟨⟨r, hr, hle⟩, -⟩ := h.tiles.bounds (by decide) (List.mem_cons_of_mem _ hb) (h.pos b hb)
  exact Nat.le_trans (h.above r hr).1 hle

theorem below (h : Ready s fl live) {b : Block} (hb : b ∈ fl ++ live) : b.stop 16 ≤ s.top := by
  obtain ⟨-, r, hr, hle⟩ := h.tiles.bounds (by decide) (List.mem_cons_of_mem _ hb) (h.pos b hb)
  exact Nat.le_trans hle (h.above r hr).2

theorem node_le (h : Ready s fl live) {b : Block} (hb : b ∈ (⟨s.base, 0⟩ :: fl : List Block)) : s.base ≤ b.addr := by
  rcases List.mem_cons.mp hb with rfl | hb
  · exact Nat.le_refl _
  · have := h.base_le (List.mem_append_left _ hb)
    omega

theorem node_ne_live (h : Ready s fl live) {b x : Block} (hb : b ∈ (⟨s.base, 0⟩ :: fl : List Block)) (hx : x ∈ live) :
    b.addr ≠ x.addr := by
  have hx' := List.mem_append_right fl hx
  rcases List.mem_cons.mp hb with rfl | hb
  · have := h.base_le hx'
    exact fun he => by simp only at he; omega
  · have hd := (List.pairwise_append.mp h.tiles.disjoint).2.2 b (List.mem_cons_of_mem _ hb) x hx
    exact hd.addr_ne (by decide) (h.pos b (List.mem_append_left _ hb)) (h.pos x hx')

theorem add_lt {a b : Block} {l : List Block} (h : Ready s fl live)
    (hp : ((⟨s.base, 0⟩ :: fl) ++ live).Perm (a :: b :: l)) : a.units + b.units < 2 ^ 32 := by
  have hsum := (h.tiles.perm hp).sum
  have := h.count
  unfold obtained at this
  simp only [List.map_cons, List.sum_cons] at hsum
  omega

end Ready

/-! ### `free` -/

def Fits (s : Heap) (bp p : Nat) : Prop :=
  (p < bp ∧ bp < ptr s p) ∨ (ptr s p ≤ p ∧ (p < bp ∨ bp < ptr s p))

instance (s : Heap) (bp p : Nat) : Decidable (Fits s bp p) := inferInstanceAs (Decidable (_ ∨ _))

theorem place_spec {s : Heap} {bp z : Nat} (l : List Block) (k : Nat) (hl : Linked s.mem z l)
    (hex : ∃ d ∈ l, Fits s bp d.addr) (hk : l.length ≤ k) :
    ∃ d ∈ l, Fits s bp d.addr ∧ place s bp k (first z l) = some d.addr := by
  induction l generalizing k with
  | nil => obtain ⟨d, hd, -⟩ := hex; cases hd
  | cons b l ih =>
    obtain ⟨k, rfl⟩ := Nat.exists_eq_succ_of_ne_zero (show k ≠ 0 by simp at hk; omega)
    by_cases hfit : Fits s bp b.addr
    · exact ⟨b, List.mem_cons_self, hfit, if_pos hfit⟩
    · obtain ⟨d, hd, hdfit⟩ := hex
      have hd' : d ∈ l := (List.mem_cons.mp hd).resolve_left fun he => hfit (he ▸ hdfit)
      obtain ⟨e, he, hefit, hplace⟩ := ih k hl.2 ⟨d, hd', hdfit⟩ (by simpa using hk)
      refine ⟨e, List.mem_cons_of_mem _ he, hefit, ?_⟩
      rw [← hplace, ← Linked.ptr (l := []) hl]
      exact if_neg hfit

theorem exists_fits {s : Heap} {bp z : Nat} (b : Block) (l : List Block) (hl : Linked s.mem z (b :: l))
    (hb : b.addr < bp) (hne : ∀ c ∈ l, c.addr ≠ bp) (hz : ∀ c ∈ b :: l, z ≤ c.addr) :
    ∃ d ∈ b :: l, Fits s bp d.addr := by
  induction l generalizing b with
  | nil =>
    have hp : ptr s b.addr = z := Linked.ptr (l := []) hl
    refine ⟨b, List.mem_cons_self, .inr ⟨?_, .inl hb⟩⟩
    rw [hp]
    exact hz b List.mem_cons_self
  | cons c l ih =>
    rcases Nat.lt_or_ge c.addr bp with hlt | hge
    · obtain ⟨d, hd, hfit⟩ := ih c hl.2 hlt (fun e he => hne e (List.mem_cons_of_mem _ he))
        fun e he => hz e (List.mem_cons_of_mem _ he)
      exact ⟨d, List.mem_cons_of_mem _ hd, hfit⟩
    · have hp : ptr s b.addr = c.addr := Linked.ptr (l := []) hl
      refine ⟨b, List.mem_cons_self, .inl ⟨hb, ?_⟩⟩
      have := hne c List.mem_cons_self
      omega

section
variable {s : Heap} {fl live pre post : List Block} {x d : Block}

theorem Ready.fits_split (h : Ready s fl live) (hn : ⟨s.base, 0⟩ :: fl = pre ++ d :: post) {bp : Nat}
    (hbp : s.base < bp) (hfit : Fits s bp d.addr) : d.addr < bp ∧ ∀ q ∈ post, bp < q.addr := by
  have hlinks := h.links
  have happart := h.apart
  rw [hn] at hlinks happart
  have hptr := hlinks.ptr
  obtain ⟨hd, hpost⟩ := List.pairwise_cons.mp (List.pairwise_append.mp happart).2.1
  have hbase : s.base ≤ d.addr := h.node_le (by rw [hn]; simp)
  unfold Fits at hfit
  rw [hptr] at hfit
  cases post with
  | nil =>
    refine ⟨?_, nofun⟩
    simp only [first_nil] at hfit
    omega
  | cons q post =>
    simp only [first_cons] at hfit
    have hdq := hd q List.mem_cons_self
    unfold Span.stop at hdq
    have hlt : bp < q.addr := by omega
    refine ⟨by omega, fun r hr => ?_⟩
    rcases List.mem_cons.mp hr with rfl | hr
    · exact hlt
    · have := (List.pairwise_cons.mp hpost).1 r hr
      unfold Span.stop at this
      omega

theorem Ready.joinUpper (h : Ready s fl (x :: live)) (hn : ⟨s.base, 0⟩ :: fl = pre ++ d :: post)
    (hd : d.addr < x.addr) (hpost : ∀ q ∈ post, x.addr < q.addr) :
    ∃ y skip tail, post = skip ++ tail ∧ y.addr = x.addr ∧ x.units ≤ y.units ∧
      joinUpper s x.addr d.addr = { s with mem := Function.update s.mem x.addr ⟨first s.base tail, y.units⟩ } ∧
      Tiling 16 ((pre ++ d :: tail) ++ y :: live) s.regions ∧ (∀ q ∈ tail, y.stop 16 < q.addr) := by
  have hlinks := h.links
  have happart := h.apart
  have htiles := h.tiles
  rw [hn] at hlinks happart htiles
  have hptr := hlinks.ptr
  have hsize : size s x.addr = x.units := h.headers x List.mem_cons_self
  have hover : s.base + 16 ≤ x.addr := h.base_le (by simp)
  have hpostApart := (List.pairwise_cons.mp (List.pairwise_append.mp happart).2.1).2
  have hstop : ∀ q ∈ post, x.stop 16 ≤ q.addr := fun q hq =>
    Span.Disjoint.stop_le ((List.pairwise_append.mp htiles.disjoint).2.2 q (by simp [hq]) x List.mem_cons_self).symm
      (hpost q hq)
  unfold Umalloc.joinUpper
  rw [hsize, hptr]
  by_cases hadj : x.addr + 16 * x.units = first s.base post
  · -- `x` reaches up to the next free block
    rw [if_pos hadj]
    cases post with
    | nil => simp only [first_nil] at hadj; omega
    | cons q post =>
      simp only [first_cons] at hadj
      have hqsize : size s q.addr = q.units := hlinks.size (by simp)
      have hqptr : ptr s q.addr = first s.base post := Linked.ptr (l := pre ++ [d]) (by simpa using hlinks)
      have hqx := hpost q List.mem_cons_self
      have hperm : ((pre ++ d :: q :: post) ++ x :: live).Perm (x :: q :: ((pre ++ d :: post) ++ live)) := by
        refine List.perm_middle.trans (.cons x ?_)
        rw [List.append_assoc, List.append_assoc]
        refine (List.Perm.append_left pre (.swap q d _)).trans ?_
        exact List.perm_middle
      have hadd : x.units + q.units < 2 ^ 32 := h.add_lt (by rw [hn]; exact hperm)
      refine ⟨⟨x.addr, x.units + q.units⟩, [q], post, rfl, rfl, Nat.le_add_right .., ?_, ?_, fun r hr => ?_⟩
      · -- neither `d` nor `q` is the block whose header changes
        simp only [first_cons, hqsize, Nat.mod_eq_of_lt hadd]
        have h1 : ptr (setSize s x.addr (x.units + q.units)) d.addr = q.addr := by
          rw [Umalloc.ptr, mem_setSize, Function.update_of_ne (by omega)]
          exact hptr
        have h2 : ptr (setSize s x.addr (x.units + q.units)) q.addr = first s.base post := by
          rw [Umalloc.ptr, mem_setSize, Function.update_of_ne (by omega)]
          exact hqptr
        rw [h1, h2]
        unfold setPtr setSize
        simp
      · have hjoin := htiles.perm hperm
        rw [show x = ⟨x.addr, x.units⟩ from rfl, show q = ⟨x.addr + 16 * x.units, q.units⟩ by rw [hadj]] at hjoin
        refine (hjoin.join fun b hb => ?_).perm List.perm_middle.symm
        have hq : 0 < q.units := h.pos q (by
          have : q ∈ (⟨s.base, 0⟩ :: fl : List Block) := by rw [hn]; simp
          rcases List.mem_cons.mp this with rfl | hq
          · simp only at hqx; omega
          · exact List.mem_append_left _ hq)
        rw [hadj]
        -- every other block lies away from `q`
        have hqb := (List.pairwise_cons.mp (List.pairwise_cons.mp (htiles.perm hperm).disjoint).2).1 b hb
        intro he
        rcases hqb with hqb | hqb
        · unfold Span.stop at hqb; omega
        · by_cases hb0 : 0 < b.units
          · unfold Span.stop at hqb; omega
          · have hbase : b = ⟨s.base, 0⟩ := by
              have hbm : b ∈ (⟨s.base, 0⟩ :: fl) ++ x :: live := by
                rw [hn]
                simp only [List.mem_append, List.mem_cons] at hb ⊢
                tauto
              rcases List.mem_cons.mp hbm with hb | hb
              · exact hb
              · exact absurd (h.pos b hb) hb0
            rw [hbase] at he
            simp only at he
            omega
      · have hqr := (List.pairwise_cons.mp hpostApart).1 r hr
        unfold Span.stop at hqr ⊢
        simp only
        omega
  · rw [if_neg hadj]
    refine ⟨x, [], post, rfl, rfl, Nat.le_refl _, ?_, htiles, fun q hq => ?_⟩
    · unfold setPtr
      rw [show (s.mem x.addr) = ⟨ptr s x.addr, x.units⟩ by rw [← hsize]; rfl]
    · cases post with
      | nil => cases hq
      | cons c post =>
        have hc := hstop c List.mem_cons_self
        simp only [first_cons] at hadj
        unfold Span.stop at hc ⊢
        rcases List.mem_cons.mp hq with rfl | hq
        · omega
        · have := (List.pairwise_cons.mp hpostApart).1 q hq
          unfold Span.stop at this
          omega

theorem Ready.relink (h : Ready s fl (x :: live)) (hd : d ∈ (⟨s.base, 0⟩ :: fl : List Block)) {mem : Nat → Header}
    {fl' : List Block} (hmem : ∀ a, a ≠ x.addr → a ≠ d.addr → mem a = s.mem a)
    (hlinks : Linked mem s.base (⟨s.base, 0⟩ :: fl'))
    (hapart : List.Pairwise (fun a b => a.stop 16 < b.addr) (⟨s.base, 0⟩ :: fl'))
    (hfreep : ∃ b ∈ (⟨s.base, 0⟩ :: fl' : List Block), b.addr = d.addr)
    (htiles : Tiling 16 ((⟨s.base, 0⟩ :: fl') ++ live) s.regions) (hpos : ∀ b ∈ fl', 0 < b.units) :
    Ready { s with mem := mem, freep := d.addr } fl' live := by
  refine ⟨hlinks, hapart, hfreep, htiles, fun b hb => ?_, fun z hz => ?_, h.above, h.base, h.count⟩
  · rcases List.mem_append.mp hb with hb | hb
    · exact hpos b hb
    · exact h.pos b (by simp [hb])
  · have hxz := (List.pairwise_cons.mp (List.pairwise_append.mp h.tiles.disjoint).2.1).1 z hz
    have hne : x.addr ≠ z.addr := hxz.addr_ne (by decide) (h.pos x (by simp)) (h.pos z (by simp [hz]))
    rw [← h.headers z (List.mem_cons_of_mem _ hz), size, size]
    simp only [hmem z.addr hne.symm (h.node_ne_live hd (List.mem_cons_of_mem _ hz)).symm]

theorem Ready.joinLower {y : Block} {skip tail : List Block} (h : Ready s fl (x :: live))
    (hn : ⟨s.base, 0⟩ :: fl = pre ++ d :: (skip ++ tail)) (hd : d.addr < x.addr) (hy : y.addr = x.addr)
    (hxy : x.units ≤ y.units) (ht : Tiling 16 ((pre ++ d :: tail) ++ y :: live) s.regions)
    (hlt : ∀ q ∈ tail, y.stop 16 < q.addr) :
    ∃ fl', Ready { joinLower { s with mem := Function.update s.mem x.addr ⟨first s.base tail, y.units⟩ } x.addr d.addr
        with freep := d.addr } fl' live ∧ fl'.length ≤ fl.length + 1 ∧ ∃ b ∈ fl', x.units ≤ b.units := by
  have hlinks := h.links
  have happart := h.apart
  rw [hn] at hlinks happart
  have hmemd : d ∈ (⟨s.base, 0⟩ :: fl : List Block) := by rw [hn]; simp
  have hover : s.base + 16 ≤ x.addr := h.base_le (by simp)
  have hx0 : 0 < x.units := h.pos x (by simp)
  have hxd : d.addr ≠ x.addr := by omega
  have hlen : fl.length + 1 = pre.length + 1 + skip.length + tail.length := by
    have := congrArg List.length hn
    simp only [List.length_cons, List.length_append] at this
    omega
  have hdsize : s.mem d.addr = ⟨first s.base (skip ++ tail), d.units⟩ := (linked_append.mp hlinks).2.1
  have hlinkPre : Linked s.mem d.addr pre := (linked_append.mp hlinks).1
  have hlinkTail : Linked s.mem s.base tail := (linked_append.mp (linked_append.mp hlinks).2.2).2
  have hpreApart := (List.pairwise_append.mp happart).1
  have hpreLt : ∀ a ∈ pre, a.stop 16 < d.addr := fun a ha =>
    (List.pairwise_append.mp happart).2.2 a ha d List.mem_cons_self
  have htailApart : List.Pairwise (fun a b => a.stop 16 < b.addr) tail :=
    (List.pairwise_append.mp (List.pairwise_cons.mp (List.pairwise_append.mp happart).2.1).2).2.1
  have hdtail : ∀ q ∈ tail, d.stop 16 < q.addr := fun q hq =>
    (List.pairwise_cons.mp (List.pairwise_append.mp happart).2.1).1 q (List.mem_append_right _ hq)
  have hpretail : ∀ a ∈ pre, ∀ q ∈ tail, a.stop 16 < q.addr := fun a ha q hq =>
    (List.pairwise_append.mp happart).2.2 a ha q (by simp [hq])
  have hdy : d.stop 16 ≤ y.addr :=
    ((List.pairwise_append.mp ht.disjoint).2.2 d (by simp) y List.mem_cons_self).stop_le (by omega)
  have hposFl : ∀ b ∈ fl, 0 < b.units := fun b hb => h.pos b (List.mem_append_left _ hb)
  -- the headers of `pre` and `tail` are not touched
  have hkeepPre : ∀ hdr : Header, ∀ a ∈ pre, Function.update (Function.update s.mem x.addr
      ⟨first s.base tail, y.units⟩) d.addr hdr a.addr = s.mem a.addr := fun hdr a ha => by
    have := hpreLt a ha
    unfold Span.stop at this
    rw [Function.update_of_ne (by omega), Function.update_of_ne (by omega)]
  have hkeepTail : ∀ hdr : Header, ∀ a ∈ tail, Function.update (Function.update s.mem x.addr
      ⟨first s.base tail, y.units⟩) d.addr hdr a.addr = s.mem a.addr := fun hdr a ha => by
    have := hlt a ha
    unfold Span.stop at this
    rw [Function.update_of_ne (by omega), Function.update_of_ne (by omega)]
  have hother : ∀ hdr : Header, ∀ a, a ≠ x.addr → a ≠ d.addr → Function.update (Function.update s.mem x.addr
      ⟨first s.base tail, y.units⟩) d.addr hdr a = s.mem a := fun hdr a hax had => by
    rw [Function.update_of_ne had, Function.update_of_ne hax]
  have hsize1 : size { s with mem := Function.update s.mem x.addr ⟨first s.base tail, y.units⟩ } d.addr = d.units := by
    simp only [size, Function.update_of_ne hxd, hdsize]
  unfold Umalloc.joinLower
  rw [hsize1]
  by_cases hadj : d.addr + 16 * d.units = x.addr
  · -- `d` reaches up to `y`; so it is not `base`
    rw [if_pos hadj]
    obtain ⟨pre, rfl⟩ : ∃ pre', pre = ⟨s.base, 0⟩ :: pre' := by
      cases pre with
      | nil =>
        cases hn
        simp only at hadj
        omega
      | cons a pre => exact ⟨pre, by cases hn; rfl⟩
    have hfl : fl = pre ++ d :: (skip ++ tail) := by cases hn; rfl
    have hperm : ((⟨s.base, 0⟩ :: pre ++ d :: tail) ++ y :: live).Perm
        (d :: y :: ((⟨s.base, 0⟩ :: pre ++ tail) ++ live)) := by
      refine List.perm_middle.trans ((List.Perm.cons y ?_).trans (.swap d y _))
      rw [List.append_assoc, List.append_assoc]
      exact List.perm_middle
    have hadd : d.units + y.units < 2 ^ 32 := by
      have hsum := (ht.perm hperm).sum
      have := h.count
      unfold obtained at this
      simp only [List.map_cons, List.sum_cons] at hsum
      omega
    have hmem : ({ setPtr (setSize { s with mem := Function.update s.mem x.addr ⟨first s.base tail, y.units⟩ } d.addr
          ((d.units + size { s with mem := Function.update s.mem x.addr ⟨first s.base tail, y.units⟩ } x.addr) % 2 ^ 32))
          d.addr (ptr (setSize { s with mem := Function.update s.mem x.addr ⟨first s.base tail, y.units⟩ } d.addr
          ((d.units + size { s with mem := Function.update s.mem x.addr ⟨first s.base tail, y.units⟩ } x.addr) % 2 ^ 32))
          x.addr) with freep := d.addr } : Heap) =
        { s with mem := Function.update (Function.update s.mem x.addr ⟨first s.base tail, y.units⟩) d.addr
                   ⟨first s.base tail, d.units + y.units⟩, freep := d.addr } := by
      have hmod : (d.units + y.units) % 4294967296 = d.units + y.units := Nat.mod_eq_of_lt hadd
      simp [setPtr, setSize, ptr, size, Function.update_of_ne hxd.symm, hmod]
    simp only [hmem]
    refine ⟨pre ++ ⟨d.addr, d.units + y.units⟩ :: tail, h.relink hmemd (hother _) ?_ ?_ ?_ ?_ ?_, ?_, ?_⟩
    · rw [← List.cons_append]
      exact linked_append.mpr ⟨hlinkPre.congr (hkeepPre _), Function.update_self .., hlinkTail.congr (hkeepTail _)⟩
    · rw [← List.cons_append]
      refine List.pairwise_append.mpr ⟨hpreApart, List.pairwise_cons.mpr ⟨fun q hq => ?_, htailApart⟩, fun a ha b hb => ?_⟩
      · have := hlt q hq
        unfold Span.stop at this ⊢
        simp only
        omega
      · rcases List.mem_cons.mp hb with rfl | hb
        · exact hpreLt a ha
        · exact hpretail a ha b hb
    · exact ⟨⟨d.addr, d.units + y.units⟩, by simp, rfl⟩
    · have hjoin := ht.perm hperm
      rw [show d = ⟨d.addr, d.units⟩ from rfl, show y = ⟨d.addr + 16 * d.units, y.units⟩ by rw [hadj, ← hy]] at hjoin
      refine (hjoin.join fun b hb => ?_).perm ?_
      · rw [hadj, ← hy]
        intro he
        simp only [List.cons_append, List.append_assoc, List.mem_cons, List.mem_append] at hb
        rcases hb with rfl | hb | hb | hb
        · simp only at he; omega
        · have := hpreLt b (List.mem_cons_of_mem _ hb)
          unfold Span.stop at this
          omega
        · have := hlt b hb
          unfold Span.stop at this
          omega
        · have hyb := (List.pairwise_cons.mp (List.pairwise_append.mp ht.disjoint).2.1).1 b hb
          exact hyb.addr_ne (by decide) (by omega) (h.pos b (by simp [hb])) he.symm
      · have hback : (⟨d.addr, d.units + y.units⟩ :: ((⟨s.base, 0⟩ :: pre ++ tail) ++ live)).Perm
            ((⟨s.base, 0⟩ :: pre ++ ⟨d.addr, d.units + y.units⟩ :: tail) ++ live) := by
          rw [List.append_assoc, List.append_assoc]
          exact List.perm_middle.symm
        exact hback
    · intro b hb
      rcases List.mem_append.mp hb with hb | hb
      · exact hposFl b (by rw [hfl]; simp [hb])
      · rcases List.mem_cons.mp hb with rfl | hb
        · simp only
          omega
        · exact hposFl b (by rw [hfl]; simp [hb])
    · simp only [List.length_cons, List.length_append] at hlen ⊢
      omega
    · exact ⟨⟨d.addr, d.units + y.units⟩, by simp, by simp only; omega⟩
  · rw [if_neg hadj]
    have hdy' : d.stop 16 < y.addr := by unfold Span.stop at hdy ⊢; omega
    have hmem : ({ setPtr { s with mem := Function.update s.mem x.addr ⟨first s.base tail, y.units⟩ } d.addr x.addr
          with freep := d.addr } : Heap) =
        { s with mem := Function.update (Function.update s.mem x.addr ⟨first s.base tail, y.units⟩) d.addr
                   ⟨y.addr, d.units⟩, freep := d.addr } := by
      simp [setPtr, Function.update_of_ne hxd, hdsize, hy]
    simp only [hmem]
    obtain ⟨fl', hfl'⟩ : ∃ fl', pre ++ d :: y :: tail = ⟨s.base, 0⟩ :: fl' := by
      cases pre with
      | nil => exact ⟨y :: tail, by cases hn; rfl⟩
      | cons a pre => exact ⟨pre ++ d :: y :: tail, by cases hn; rfl⟩
    have hy' : y ∈ fl' := by
      have hmem : y ∈ (⟨s.base, 0⟩ :: fl' : List Block) := by rw [← hfl']; simp
      refine (List.mem_cons.mp hmem).resolve_left fun he => ?_
      rw [he] at hy
      simp only at hy
      omega
    have hapart : List.Pairwise (fun a b : Block => a.stop 16 < b.addr) (⟨s.base, 0⟩ :: fl') := by
      rw [← hfl']
      refine List.pairwise_append.mpr ⟨hpreApart, List.pairwise_cons.mpr ⟨fun q hq => ?_,
        List.pairwise_cons.mpr ⟨hlt, htailApart⟩⟩, fun a ha b hb => ?_⟩
      · rcases List.mem_cons.mp hq with rfl | hq
        · exact hdy'
        · exact hdtail q hq
      · have hpre := hpreLt a ha
        rcases List.mem_cons.mp hb with rfl | hb
        · exact hpre
        · rcases List.mem_cons.mp hb with rfl | hb
          · unfold Span.stop at hdy' hpre ⊢
            omega
          · exact hpretail a ha b hb
    refine ⟨fl', h.relink hmemd (hother _) ?_ hapart ⟨d, by rw [← hfl']; simp, rfl⟩ ?_ ?_, ?_, y, hy', hxy⟩
    · rw [← hfl']
      refine linked_append.mpr ⟨hlinkPre.congr (hkeepPre _), Function.update_self .., ?_, hlinkTail.congr (hkeepTail _)⟩
      rw [Function.update_of_ne (by omega), hy, Function.update_self]
    · rw [← hfl']
      refine ht.perm ?_
      rw [List.append_assoc, List.append_assoc]
      exact List.Perm.append_left pre (.cons d List.perm_middle)
    · intro b hb
      have hmem : b ∈ pre ++ d :: y :: tail := by rw [hfl']; exact List.mem_cons_of_mem _ hb
      by_cases hby : b = y
      · rw [hby]; omega
      · have hbn : b ∈ (⟨s.base, 0⟩ :: fl : List Block) := by
          rw [hn]
          simp only [List.mem_append, List.mem_cons] at hmem ⊢
          tauto
        rcases List.mem_cons.mp hbn with rfl | hb'
        · exact absurd ((List.pairwise_cons.mp hapart).1 _ hb) (Nat.lt_irrefl _)
        · exact hposFl b hb'
    · have := congrArg List.length hfl'
      simp only [List.length_cons, List.length_append] at hlen this
      omega

theorem Ready.free (h : Ready s fl (x :: live)) {k : Nat} (hk : fl.length < k) :
    ∃ t fl', free s k (x.addr + 16) = some t ∧ Ready t fl' live ∧ fl'.length ≤ fl.length + 1 ∧
      (∃ b ∈ fl', x.units ≤ b.units) ∧ t.live = s.live ∧ t.regions = s.regions ∧ t.base = s.base := by
  have hover : s.base + 16 ≤ x.addr := h.base_le (by simp)
  -- the tour of the list that starts at `freep`
  obtain ⟨f, hf, hfreep⟩ := h.freep
  obtain ⟨l, l', hl⟩ := List.append_of_mem hf
  have htour : Linked s.mem (first 0 ((f :: l') ++ l)) ((f :: l') ++ l) := by
    refine Linked.rotate ?_
    rw [← hl]
    exact h.links
  have hfit : ∃ d ∈ (f :: l') ++ l, Fits s x.addr d.addr := by
    obtain ⟨d, hd, hfit⟩ := exists_fits _ _ h.links (by simp only; omega)
      (fun c hc => h.node_ne_live (List.mem_cons_of_mem _ hc) List.mem_cons_self) fun c hc => h.node_le hc
    refine ⟨d, ?_, hfit⟩
    rw [hl] at hd
    simp only [List.mem_append, List.mem_cons] at hd ⊢
    tauto
  have hlen : ((f :: l') ++ l).length ≤ k := by
    have := congrArg List.length hl
    simp only [List.length_cons, List.length_append] at this ⊢
    omega
  obtain ⟨d, hd, hdfit, hplace⟩ := place_spec _ k htour hfit hlen
  have hd' : d ∈ (⟨s.base, 0⟩ :: fl : List Block) := by
    rw [hl]
    simp only [List.mem_append, List.mem_cons] at hd ⊢
    tauto
  obtain ⟨pre, post, hn⟩ := List.append_of_mem hd'
  obtain ⟨hdx, hpost⟩ := h.fits_split hn (by omega) hdfit
  obtain ⟨y, skip, tail, rfl, hy, hxy, hupper, htiles, htail⟩ := h.joinUpper hn hdx hpost
  obtain ⟨fl', hready, hlen', hbig⟩ := h.joinLower hn hdx hy hxy htiles htail
  refine ⟨_, fl', ?_, hready, hlen', hbig, ?_, ?_, ?_⟩
  · unfold Umalloc.free
    simp only [Nat.add_sub_cancel]
    rw [List.cons_append, first_cons, hfreep] at hplace
    rw [hplace, Option.map_some, hupper]
  all_goals
    unfold Umalloc.joinLower
    simp only
    split <;> rfl

end

end Xv6.Umalloc
