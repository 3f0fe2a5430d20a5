import Xv6.Kern.Exec
import Xv6.Vm.UserCopy

/-! The image that `exec` builds: the segments over zeroes, a guard page, and the arguments on the stack. -/

namespace Xv6.Kern
open Lib Vm

/-- The byte that the user of page table `p` can read at `va`. -/
def umem (s : Vm.Sys) (p va : Nat) : Option UInt8 := (phys s p readable va).map s.byte

/-- Memory `m` with `k` bytes of the file `l`, from offset `off` on, at address `va`. -/
def overlay (l : List UInt8) (va off k : Nat) (m : Nat → UInt8) (x : Nat) : UInt8 :=
  if va ≤ x ∧ x < va + k then l.getD (off + (x - va)) 0 else m x

def Holds (t : Vm.Sys) (p n : Nat) (m : Nat → UInt8) : Prop := ∀ x < n * PGSIZE, umem t p x = some (m x)

section
variable {s t : Vm.Sys} {p va a x : Nat} {l : List UInt8}

theorem umem_setBytes (h : UserTable s p) (ha : phys s p readable va = some a) (hin : va % PGSIZE + l.length ≤ PGSIZE) :
    umem (s.setBytes a l) p x = if va ≤ x ∧ x < va + l.length then some (l.getD (x - va) 0) else umem s p x := by
  have hphys := (h.setBytes (l := l) ha).phys
  have hmod := (phys_page ha).2
  unfold umem
  rw [hphys]
  split
  · next hx =>
    obtain ⟨i, rfl⟩ : ∃ i, x = va + i := ⟨x - va, by omega⟩
    rw [phys_add ha (by omega), Option.map_some, byte_setBytes (by omega), if_pos (by omega), Nat.add_sub_cancel_left,
      Nat.add_sub_cancel_left]
  · next hx =>
    cases hb : phys s p readable x with
    | none => rfl
    | some b =>
      rw [Option.map_some, Option.map_some, byte_setBytes (by omega), if_neg]
      rintro ⟨h1, h2⟩
      have hi : phys s p readable (va + (b - a)) = some b := by
        rw [phys_add ha (by omega)]
        congr 1
        omega
      have := h.inj hb hi
      omega

theorem umem_delivered (h : UserTable s p) (hd : Delivered s t p va l)
    (hmap : ∀ i < l.length, (phys s p writable (va + i)).isSome) :
    umem t p x = if va ≤ x ∧ x < va + l.length then some (l.getD (x - va) 0) else umem s p x := by
  unfold umem
  rw [(hd.same h).phys]
  split
  · next hx =>
    obtain ⟨i, rfl⟩ : ∃ i, x = va + i := ⟨x - va, by omega⟩
    obtain ⟨b, hb⟩ := Option.isSome_iff_exists.mp (hmap i (by omega))
    rw [phys_readable hb, Option.map_some, hd.there i (by omega) b hb, Nat.add_sub_cancel_left]
  · next hx =>
    cases hb : phys s p readable x with
    | none => rfl
    | some b =>
      rw [Option.map_some, Option.map_some, hd.frame b fun i hi hw => ?_]
      have := h.inj hb (phys_readable hw)
      omega

theorem readBytes_full {o k : Nat} (hk : 0 < k) (hlen : (Fs.readBytes l o k).length = k) :
    o + k ≤ l.length ∧ ∀ j < k, (Fs.readBytes l o k).getD j 0 = l.getD (o + j) 0 := by
  unfold Fs.readBytes at hlen ⊢
  split at hlen
  · rw [← hlen] at hk
    exact absurd hk (Nat.lt_irrefl 0)
  · next hno =>
    rw [List.length_take, List.length_drop] at hlen
    refine ⟨by omega, fun j hj => ?_⟩
    rw [if_neg hno, List.getD_eq_getElem?_getD, List.getElem?_take_of_lt hj, List.getElem?_drop, ← List.getD_eq_getElem?_getD]

end

section
variable {L : Layout} {X : Pins} {s t : Vm.Sys} {T : Temps} {p n tf : Nat} {m : Nat → UInt8} {l : List UInt8}

theorem image_userTable (h : Image L X s T p n tf t) : UserTable t p := h.rep.userTable h.root h.space.kernelTop

theorem image_size (h : Image L X s T p n tf t) : n * PGSIZE ≤ 134217728 := by
  have := h.le_pages
  simp only [PGSIZE]
  omega

theorem Holds.phys (h : Holds t p n m) {x : Nat} (hx : x < n * PGSIZE) : ∃ a, Vm.phys t p readable x = some a := by
  have hsome := h x hx
  unfold umem at hsome
  obtain ⟨a, ha, -⟩ := Option.map_eq_some_iff.mp hsome
  exact ⟨a, ha⟩

theorem Holds.congr {m' : Nat → UInt8} (h : Holds t p n m) (he : ∀ x < n * PGSIZE, m' x = m x) : Holds t p n m' :=
  fun x hx => by rw [he x hx, h x hx]

theorem image_setBytes {va b : Nat} {c : List UInt8} (h : Image L X s T p n tf t) (hva : va < n * PGSIZE)
    (hb : phys t p readable va = some b) (hmod : va % PGSIZE = 0) : Image L X s T p n tf (t.setBytes b c) := by
  have hn := h.le_pages
  have hU : USERPAGES = 67108862 := by decide
  obtain ⟨-, hf, hpa⟩ := phys_some.mp hb
  rw [hmod, Nat.add_zero, ← ent_of_root h.root] at hpa
  have hV := hf PTE_V (by decide)
  rw [← ent_of_root h.root] at hV
  have hv : va / PGSIZE < n := by
    simp only [PGSIZE] at hva ⊢
    omega
  have ht : target (lv t ⟨some p, T.pages⟩ none (va / PGSIZE)) = some b := by rw [target, if_pos hV, hpa]
  obtain ⟨hw, hst⟩ := h.rep.writeUser (l := c) (show va / PGSIZE < USERPAGES by omega) ht (show 0 < PGSIZE by decide)
    (hpa ▸ h.unpinned _ (Nat.zero_le _) hv)
  rw [Nat.add_zero] at hw hst
  exact h.still hw hst

theorem wp_loadseg_mem {va off sz : Nat} (hl : l.length < 2 ^ 32) (h : Image L X s T p n tf t) (hm : Holds t p n m)
    (hfit : va + sz ≤ n * PGSIZE) (hva : va % PGSIZE = 0) (hoff : off < 2 ^ 32) :
    wp (Vm.loadseg p va (image l) off sz)
      (fun r t' => Image L X s T p n tf t' ∧ (0 ≤ r → Holds t' p n (overlay l va off sz m))) (Vm.Looked L) t := by
  have hsize := image_size h
  have hP : PGSIZE = 4096 := rfl
  unfold Vm.loadseg
  rw [wp_bind]
  -- all pages of the segment before the counter are loaded, and the file is long enough for them
  refine wp_forUp (I := fun a t' => Image L X s T p n tf t' ∧ a % PGSIZE = 0 ∧
    Holds t' p n (overlay l va off (min a sz) m) ∧ (0 < a → off + min a sz ≤ l.length)) (by decide)
    ⟨h, rfl, hm.congr fun x _ => ?_, fun h0 => absurd h0 (Nat.lt_irrefl 0)⟩ ?_ ?_
  · unfold overlay
    rw [if_neg (by omega)]
  · rintro a t1 hlt ⟨h1, ha, hm1, hfile⟩
    have hwrap : (va + a) % 2 ^ 64 = va + a := by omega
    have hdown : pgRoundDown (va + a) = va + a := by
      simp only [pgRoundDown, PGSIZE] at hva ha ⊢
      omega
    obtain ⟨b, hb⟩ := hm1.phys (x := va + a) (by omega)
    have htab := image_userTable h1
    have hbdown : pgRoundDown b = b := by
      have := (phys_page hb).2
      simp only [pgRoundDown, PGSIZE] at hva ha this ⊢
      omega
    rw [hwrap, wp_bind]
    have hwalk : walkaddr p (pgRoundDown (va + a)) t1 = _ := htab.walkaddr_eq
    rw [hdown, hb, Option.elim_some, hbdown] at hwalk
    refine wp_of_ok hwalk ?_
    have hne : b ≠ 0 := hbdown ▸ (htab.user _ _ hb).1
    obtain ⟨k, hk⟩ : ∃ k, k = if sz - a < PGSIZE then sz - a else PGSIZE := ⟨_, rfl⟩
    have hk0 : 0 < k ∧ k ≤ PGSIZE ∧ a + k ≤ sz ∧ min (a + PGSIZE) sz = a + k := by
      rw [hk]
      split <;> omega
    simp only [if_neg hne, wp_bind, wp_change, wp_ite, wp_pure]
    rw [← hk]
    have hlen : ((image l).readi ((off + a) % 2 ^ 32) k).length ≤ k := (image l).length_le _ _
    obtain ⟨c, hc⟩ : ∃ c, c = (image l).readi ((off + a) % 2 ^ 32) k := ⟨_, rfl⟩
    rw [← hc] at hlen ⊢
    have hmod : (va + a) % PGSIZE = 0 := by
      rw [hP] at hva ha ⊢
      omega
    have hmem : ∀ x, umem (t1.setBytes b c) p x = if va + a ≤ x ∧ x < va + a + c.length then some (c.getD (x - (va + a)) 0)
        else umem t1 p x := fun x => umem_setBytes htab hb (by omega)
    have h2 : Image L X s T p n tf (t1.setBytes b c) := image_setBytes h1 (by omega) hb hmod
    split
    · exact ⟨h2, fun h0 => absurd h0 (by decide)⟩
    next hfull =>
    rw [not_not] at hfull
    have hread := readBytes_full (l := l) (o := (off + a) % 2 ^ 32) hk0.1
      ((congrArg List.length hc.symm).trans hfull)
    have hpos : (off + a) % 2 ^ 32 = off + a := by
      rcases Nat.eq_zero_or_pos a with rfl | ha0
      · omega
      · have := hfile ha0
        omega
    rw [hpos] at hread hc
    refine ⟨by omega, h2, by rw [hP] at ha ⊢; omega, fun x hx => ?_, fun _ => by omega⟩
    rw [hmem, hk0.2.2.2, hfull]
    unfold overlay
    by_cases hin : va + a ≤ x ∧ x < va + a + k
    · rw [if_pos hin, if_pos (by omega), hc]
      have := hread.2 (x - (va + a)) (by omega)
      rw [show (image l).readi (off + a) k = Fs.readBytes l (off + a) k from rfl, this]
      congr 2
      omega
    · rw [if_neg hin, hm1 x hx]
      unfold overlay
      congr 1
      by_cases hold : va ≤ x ∧ x < va + min a sz
      · rw [if_pos hold, if_pos (by omega)]
      · rw [if_neg hold, if_neg (by omega)]
  · rintro a t1 hge ⟨h1, -, hm1, -⟩
    rw [Nat.min_eq_right hge] at hm1
    exact ⟨h1, fun _ => hm1⟩

theorem le_snap {T : Temps} (h : Rep L X t T) : X.Le (snap t T X.frozen fun _ => True) :=
  ⟨fun pa b hb => by
    obtain ⟨hpage, o, hkeep, ho⟩ := h.pins pa b hb
    rw [snap_some ho trivial hkeep, hpage], rfl⟩

theorem umem_kept {X' : Pins} {t' : Vm.Sys} {F : Tab → Prop} {x : Nat} (h : Image L X s T p n tf t)
    (hle : (snap t ⟨some p, T.pages⟩ F fun _ => True).Le X') (hs : Rep L X' t' ⟨some p, T.pages⟩) (hx : x < n * PGSIZE)
    (hlv : lv t' ⟨some p, T.pages⟩ none (x / PGSIZE) = lv t ⟨some p, T.pages⟩ none (x / PGSIZE)) : umem t' p x = umem t p x := by
  have hn := h.le_pages
  have hU : USERPAGES = 67108862 := by decide
  have hv : x / PGSIZE < n := by
    simp only [PGSIZE] at hx ⊢
    omega
  have hentry : entry t'.page p 2 (x / PGSIZE) = entry t.page p 2 (x / PGSIZE) := by
    rw [← ent_of_root (T := ⟨some p, T.pages⟩) (r := none) (s := t') rfl, ← ent_of_root h.root]
    exact hlv
  have hown := h.rep.own_user (show x / PGSIZE < USERPAGES by omega) (h.space.user.mapped _ hv)
  have hpage := hs.page_snap hle hown trivial (by rintro _ _ _ ⟨⟩)
  have hphys : phys t' p readable x = phys t p readable x := by
    unfold phys
    rw [hentry]
  unfold umem
  rw [hphys]
  cases ha : phys t p readable x with
  | none => rfl
  | some a =>
    have hdown := (phys_page ha).1
    rw [← ent_of_root h.root] at hdown
    simp only [Option.map_some, Sys.byte, hdown, hpage]

theorem image_grown {X' : Pins} {t' : Vm.Sys} {k : Nat} {perm : Nat → Nat} {c : Nat → Option Page} (h : Image L X s T p n tf t)
    (hs : Rep L X' t' ⟨some p, T.pages⟩) (hg : Grown t ⟨some p, T.pages⟩ t' none n k perm)
    (hf : Filled (snap t ⟨some p, T.pages⟩ X.frozen fun _ => True) X' t' ⟨some p, T.pages⟩ none n k c) (hnk : n ≤ k) :
    Image L X s T p k tf t' := by
  have hle := le_snap h.rep
  refine ⟨hs.forget (hle.trans hf.le), fun v h1 h2 => ?_, h.kept.trans hg.kept,
    fun i v => (hg.old (some i) v fun he => Option.some_ne_none i he.1).trans (h.slots i v), h.space.grow hs hg hnk⟩
  by_cases hv : n ≤ v
  · have hnone := hf.unpinned v hv h2
    cases hX : X (pte2pa (lv t' ⟨some p, T.pages⟩ none v)) with
    | none => rfl
    | some b =>
      rw [hle.page _ b hX] at hnone
      cases hnone
  · rw [hg.old none v (by omega)]
    exact h.unpinned v h1 (by omega)

theorem wp_uvmalloc_mem [hopen : X.Open none] {Q : Nat → Vm.Sys → Prop} {sz newsz xperm : Nat}
    (h : Image L X s T p (pages sz) tf t) (hm : Holds t p (pages sz) m) (hzero : ∀ x, pages sz * PGSIZE ≤ x → m x = 0)
    (hx : xperm < 1024) (hfail : ∀ t', Image L X s T p (pages sz) tf t' → Q 0 t') (hshrink : newsz < sz → Q sz t)
    (hok : ∀ t', sz ≤ newsz → Image L X s T p (pages newsz) tf t' → Holds t' p (pages newsz) m → Q newsz t') :
    wp (uvmalloc L p sz newsz xperm) Q (Vm.Looked L) t := by
  have hle := le_snap h.rep
  have : (snap t ⟨some p, T.pages⟩ X.frozen fun _ => True).Open none := ⟨hopen.out⟩
  have hrep : Rep L (snap t ⟨some p, T.pages⟩ X.frozen fun _ => True) t ⟨some p, T.pages⟩ := h.rep.snap
  refine wp_uvmalloc hrep h.root h.space.user hx (fun t' ht' hc => hfail t' (h.calm (ht'.forget hle) hc)) hshrink
    fun t' X' hsz ht' hg hf => ?_
  have h1 := image_grown h ht' hg hf (pages_mono hsz)
  refine hok t' hsz h1 fun x hlt => ?_
  rcases Nat.lt_or_ge x (pages sz * PGSIZE) with hold | hnew
  · rw [umem_kept h hf.le ht' hold (hg.old none _ ?_), hm x hold]
    simp only [PGSIZE] at hold ⊢
    omega
  · have hv : pages sz ≤ x / PGSIZE ∧ x / PGSIZE < pages newsz := by
      simp only [PGSIZE] at hnew hlt ⊢
      omega
    have hsize := image_size h1
    obtain ⟨pa, hpte⟩ := hg.new _ hv.1 hv.2
    have hentry : entry t'.page p 2 (x / PGSIZE) = lv t' ⟨some p, T.pages⟩ none (x / PGSIZE) := (ent_of_root rfl).symm
    have hphys : phys t' p readable x = some (pa + x % PGSIZE) := by
      refine phys_some.mpr ⟨?_, fun f hf => ?_, ?_⟩
      · simp only [MAXVA]
        omega
      · rw [hentry]
        simp only [readable, List.mem_cons, List.not_mem_nil, or_false] at hf
        rcases hf with rfl | rfl
        · rw [hpte.has_eq (by decide)]
          exact has_valid _
        · rw [hpte.has_eq (by decide), has_union, has_user, Bool.true_or]
      · rw [hentry, hpte.pa_eq]
    have hpage := (ht'.pins _ _ (hf.pinned _ hv.1 hv.2)).1
    have hdown := (phys_page hphys).1
    rw [hentry] at hdown
    unfold umem
    rw [hphys, Option.map_some, Sys.byte, hdown, hpage, hzero x hnew]
    exact congrArg some (Bytes.get_zero _)

theorem wp_uvmclear_mem [hopen : X.Open none] {Q : Unit → Vm.Sys → Prop} {v : Nat} (h : Image L X s T p n tf t) (hv : v < n)
    (hQ : ∀ t', Image L X s T p n tf t' →
      (∀ x < n * PGSIZE, umem t' p x = if x / PGSIZE = v then none else umem t p x) → Q () t') :
    wp (uvmclear p (v * PGSIZE)) Q (Vm.Looked L) t := by
  have hn := h.le_pages
  have hle := le_snap h.rep
  have : (snap t ⟨some p, T.pages⟩ X.frozen fun _ => True).Open none := ⟨hopen.out⟩
  have hrep : Rep L (snap t ⟨some p, T.pages⟩ X.frozen fun _ => True) t ⟨some p, T.pages⟩ := h.rep.snap
  have hdiv : v * PGSIZE / PGSIZE = v := Nat.mul_div_cancel _ (by decide)
  have hmapped := h.space.user.mapped v hv
  refine wp_uvmclear hrep h.root ?_ (by rw [hdiv]; exact hmapped) fun t' ht' hl => ?_
  · simp only [MAXVA, PGSIZE]
    omega
  rw [hdiv] at hl
  obtain ⟨hne, hpa⟩ := h.rep.clear_leaf hmapped
  refine hQ t' (h.clear hv (ht'.forget hle) hl hne hpa) fun x hx => ?_
  split
  · next hxv =>
    have hentry : entry t'.page p 2 (x / PGSIZE) = lv t ⟨some p, T.pages⟩ none v &&& (2 ^ 64 - 1 - PTE_U) := by
      rw [← ent_of_root (T := ⟨some p, T.pages⟩) (r := none) (s := t') rfl, hxv]
      exact (hl.lv none v).trans (if_pos ⟨rfl, rfl⟩)
    unfold umem
    rw [show phys t' p readable x = none from if_neg fun hall => ?_]
    · rfl
    · have hU := List.all_eq_true.mp hall.2 PTE_U (by decide)
      rw [hentry, has, Nat.and_assoc, show (2 ^ 64 - 1 - PTE_U) &&& PTE_U = 0 from by decide, Nat.and_zero] at hU
      exact absurd hU (by decide)
  · next hxv => exact umem_kept h .refl ht' hx ((hl.lv none _).trans (if_neg fun he => hxv he.2))

def headers (l : List UInt8) : Nat → Nat → List Proghdr
  | 0, _ => []
  | rounds + 1, off => .ofBytes (Fs.readBytes l off Proghdr.size) :: headers l rounds ((off + Proghdr.size) % 2 ^ 32)

def loaded (l : List UInt8) (phs : List Proghdr) (m : Nat → UInt8) : Nat → UInt8 :=
  phs.foldl (fun m ph => if ph.type = ELF_PROG_LOAD then overlay l ph.vaddr (ph.off % 2 ^ 32) ph.filesz m else m) m

/-- The image has `m` in its pages, and `m` is zero above them. -/
structure Contains (L : Layout) (X : Pins) (s : Vm.Sys) (T : Temps) (p n tf : Nat) (m : Nat → UInt8) (t : Vm.Sys) : Prop where
  image : Image L X s T p n tf t
  holds : Holds t p n m
  zero : ∀ x, n * PGSIZE ≤ x → m x = 0

/-- What the loop leaves: an image of the size it returns, and `m` in it unless it gives up. -/
def Segmented (L : Layout) (X : Pins) (s : Vm.Sys) (T : Temps) (p tf : Nat) (m : Nat → UInt8) (r : Nat × Bool) (t : Vm.Sys) : Prop :=
  Image L X s T p (pages r.1) tf t ∧ (r.2 = true → Contains L X s T p (pages r.1) tf m t)

theorem wp_loadSegments_mem [X.Open none] {rounds off sz : Nat} (hl : l.length < 2 ^ 32)
    (h : Contains L X s T p (pages sz) tf m t) :
    wp (Vm.loadSegments L p (image l) rounds off sz) (Segmented L X s T p tf (loaded l (headers l rounds off) m))
      (Vm.Looked L) t := by
  induction rounds generalizing off sz m t with
  | zero => exact ⟨h.image, fun _ => h⟩
  | succ rounds ih =>
    have hbad : ∀ m', Segmented L X s T p tf m' (sz, false) t := fun _ => ⟨h.image, by rintro ⟨⟩⟩
    unfold Vm.loadSegments
    dsimp only
    simp only [wp_ite, wp_bind]
    have hstep : headers l (rounds + 1) off = Proghdr.ofBytes ((image l).readi off Proghdr.size) ::
        headers l rounds ((off + Proghdr.size) % 2 ^ 32) := rfl
    have hvaddr : (Proghdr.ofBytes ((image l).readi off Proghdr.size)).vaddr < 2 ^ 64 := field_lt
    have hmemsz : (Proghdr.ofBytes ((image l).readi off Proghdr.size)).memsz < 2 ^ 64 := field_lt
    rw [hstep]
    generalize Proghdr.ofBytes ((image l).readi off Proghdr.size) = ph at *
    split
    · exact hbad _
    split
    · next hskip =>
      have hsame : loaded l (ph :: headers l rounds ((off + Proghdr.size) % 2 ^ 32)) m =
          loaded l (headers l rounds ((off + Proghdr.size) % 2 ^ 32)) m := by
        unfold loaded
        rw [List.foldl_cons, if_neg hskip]
      rw [hsame]
      exact ih h
    next htype =>
    rw [not_not] at htype
    have hnext : loaded l (ph :: headers l rounds ((off + Proghdr.size) % 2 ^ 32)) m =
        loaded l (headers l rounds ((off + Proghdr.size) % 2 ^ 32)) (overlay l ph.vaddr (ph.off % 2 ^ 32) ph.filesz m) := by
      unfold loaded
      rw [List.foldl_cons, if_pos htype]
    split
    · exact hbad _
    next hmem =>
    split
    · exact hbad _
    next hwrap =>
    split
    · exact hbad _
    next halign =>
    rw [not_not] at halign
    have hsum : (ph.vaddr + ph.memsz) % 2 ^ 64 = ph.vaddr + ph.memsz := by omega
    rw [hsum, hnext]
    obtain ⟨m', hm'⟩ : ∃ m', m' = loaded l (headers l rounds ((off + Proghdr.size) % 2 ^ 32))
      (overlay l ph.vaddr (ph.off % 2 ^ 32) ph.filesz m) := ⟨_, rfl⟩
    rw [← hm']
    -- the segment lies in memory that the image has
    have load : ∀ sz1 t1, ph.vaddr + ph.memsz ≤ sz1 → Contains L X s T p (pages sz1) tf m t1 →
        wp (Vm.loadseg p ph.vaddr (image l) (ph.off % 2 ^ 32) (ph.filesz % 2 ^ 32)) (fun r t2 => if r < 0 then
          wp (pure (sz1, false)) (Segmented L X s T p tf m') (Vm.Looked L) t2
          else wp (Vm.loadSegments L p (image l) rounds ((off + Proghdr.size) % 2 ^ 32) sz1) (Segmented L X s T p tf m')
            (Vm.Looked L) t2) (Vm.Looked L) t1 := by
      intro sz1 t1 hle h1
      have hsize := image_size h1.image
      have hsz1 : sz1 ≤ pages sz1 * PGSIZE := by
        simp only [pages, PGSIZE]
        omega
      have hfile : ph.filesz % 2 ^ 32 = ph.filesz := by omega
      rw [hfile]
      refine wp_post (wp_loadseg_mem hl h1.image h1.holds (by omega) halign (Nat.mod_lt _ (by decide)))
        fun r t2 h2m => ?_
      obtain ⟨h2, hm2⟩ := h2m
      split
      · exact ⟨h2, by rintro ⟨⟩⟩
      · next hr =>
        rw [hm']
        refine ih ⟨h2, hm2 (by omega), fun x hx => ?_⟩
        unfold overlay
        rw [if_neg (by omega), h1.zero x hx]
    refine wp_uvmalloc_mem h.image h.holds h.zero flags2perm_lt (fun t1 h1 => ?_) (fun hshrink => ?_) fun t1 hle h1 hm1 => ?_
    · rw [if_pos rfl]
      exact ⟨h1, by rintro ⟨⟩⟩
    · rw [if_neg (by omega)]
      exact load sz t hshrink.le h
    · split
      · next h0 =>
        obtain rfl : sz = ph.vaddr + ph.memsz := by omega
        exact ⟨h1, by rintro ⟨⟩⟩
      · refine load _ t1 (le_refl _) ⟨h1, hm1, fun x hx => h.zero x ?_⟩
        exact Nat.le_trans (Nat.mul_le_mul_right _ (pages_mono hle)) hx

/-! ### The stack -/

/-- The strings `strs` lie at the addresses `us`, one below the other between `lo` and `hi`. -/
def Stacked (M : Nat → Option UInt8) : List (List UInt8) → List Nat → Nat → Nat → Prop
  | [], [], hi, lo => lo = hi
  | str :: strs, u :: us, hi, lo => u % 16 = 0 ∧ u + (str.length + 1) ≤ hi ∧
      (∀ k ≤ str.length, M (u + k) = some ((str ++ [0]).getD k 0)) ∧ Stacked M strs us u lo
  | _, _, _, _ => False

theorem Stacked.le {M : Nat → Option UInt8} {strs : List (List UInt8)} {us : List Nat} {hi lo : Nat}
    (h : Stacked M strs us hi lo) : lo ≤ hi := by
  induction strs generalizing us hi with
  | nil =>
    cases us with
    | nil => exact Nat.le_of_eq h
    | cons u us => exact h.elim
  | cons str strs ih =>
    cases us with
    | nil => exact h.elim
    | cons u us =>
      obtain ⟨-, hu, -, hrest⟩ := h
      have := ih hrest
      omega

theorem Stacked.congr {M M' : Nat → Option UInt8} {strs : List (List UInt8)} {us : List Nat} {hi lo : Nat}
    (h : Stacked M strs us hi lo) (hM : ∀ x, lo ≤ x → x < hi → M' x = M x) : Stacked M' strs us hi lo := by
  induction strs generalizing us hi with
  | nil =>
    cases us with
    | nil => exact h
    | cons u us => exact h.elim
  | cons str strs ih =>
    cases us with
    | nil => exact h.elim
    | cons u us =>
      obtain ⟨hal, hu, hbytes, hrest⟩ := h
      have hle := hrest.le
      refine ⟨hal, hu, fun k hk => ?_, ih hrest fun x h1 h2 => hM x h1 (by omega)⟩
      rw [hM (u + k) (by omega) (by omega), hbytes k hk]

theorem image_copyout {va : Nat} {src : List UInt8} {r : Int} {t' : Vm.Sys} (h : Image L X s T p n tf t)
    (hrun : copyout p va src t = .ok r t') : Image L X s T p n tf t' := by
  have hspec : wp (copyout p va src) (fun _ t' => Image L X s T p n tf t') (Vm.Looked L) t :=
    wp_copyout h.rep h.root h.space.kernelTop h.all_unpinned fun _ _ ht hst => h.still ht hst
  unfold wp at hspec
  rwa [hrun] at hspec

theorem copyout_umem {va : Nat} {src : List UInt8} {r : Int} {t' : Vm.Sys} (h : UserTable t p) (hr : ¬ r < 0)
    (hc : Vm.Copied t p va src r t') : (∀ i < src.length, va + i < MAXVA) ∧
      ∀ x, umem t' p x = if va ≤ x ∧ x < va + src.length then some (src.getD (x - va) 0) else umem t p x := by
  obtain ⟨k, -, hmap, hd, ⟨-, rfl⟩ | ⟨hneg, -⟩⟩ := hc
  · rw [List.take_length] at hd
    refine ⟨fun i hi => ?_, fun x => umem_delivered h hd hmap⟩
    obtain ⟨a, ha⟩ := Option.isSome_iff_exists.mp (hmap i hi)
    exact (phys_some.mp ha).1
  · rw [hneg] at hr
    exact absurd (by decide) hr

theorem sub64_of_mapped {sp len : Nat} (hsp : sp < 2 ^ 63) (hlen : len ≤ 2 ^ 20) (h : sub64 sp len - sub64 sp len % 16 < MAXVA) :
    sub64 sp len = sp - len ∧ len ≤ sp := by
  unfold sub64 at h ⊢
  simp only [MAXVA] at h
  omega

theorem wp_pushStrings_mem {str : Nat → List UInt8} {base argc sp : Nat} {argv : List Nat} (h : Image L X s T p n tf t)
    (hstr : ∀ a ∈ argv, ∀ t', Image L X s T p n tf t' → t'.cstr a = str a) (hlen : ∀ a ∈ argv, (str a).length ≤ PGSIZE)
    (hsp : sp ≤ n * PGSIZE) (hbase : base ≤ sp) :
    wp (pushStrings p base argv argc sp) (fun r t' => Image L X s T p n tf t' ∧ ∀ sp' us, r = some (sp', us) →
      base ≤ sp' ∧ Stacked (umem t' p) (argv.map str) us sp sp' ∧
      ∀ x < n * PGSIZE, x < sp' ∨ sp ≤ x → umem t' p x = umem t p x) (Vm.Looked L) t := by
  have hsize := image_size h
  induction argv generalizing argc sp t with
  | nil =>
    refine ⟨h, fun sp' us heq => ?_⟩
    obtain ⟨rfl, rfl⟩ := Prod.mk.inj (Option.some.inj heq)
    exact ⟨hbase, rfl, fun _ _ _ => rfl⟩
  | cons arg argv ih =>
    rw [pushStrings, wp_ite]
    split
    · exact ⟨h, by rintro _ _ ⟨⟩⟩
    rw [wp_bind, wp_view, hstr arg List.mem_cons_self t h]
    have hl := hlen arg List.mem_cons_self
    dsimp only
    obtain ⟨u, hu⟩ : ∃ u, u = sub64 sp ((str arg).length + 1) - sub64 sp ((str arg).length + 1) % 16 := ⟨_, rfl⟩
    rw [← hu, wp_ite]
    split
    · exact ⟨h, by rintro _ _ ⟨⟩⟩
    next hroom =>
    obtain ⟨r, t1, hrun, hcopied⟩ := (image_userTable h).copied u (str arg ++ [0])
    have h1 := image_copyout h hrun
    rw [wp_bind]
    refine wp_of_ok hrun ?_
    rw [wp_ite]
    split
    · exact ⟨h1, by rintro _ _ ⟨⟩⟩
    next hr =>
    -- the copy has succeeded, so the stack pointer did not wrap around
    obtain ⟨hva, hmem⟩ := copyout_umem (image_userTable h) hr hcopied
    have hlen1 : (str arg ++ [0]).length = (str arg).length + 1 := by simp
    rw [hlen1] at hva hmem
    obtain ⟨hsub, hle⟩ : sub64 sp ((str arg).length + 1) = sp - ((str arg).length + 1) ∧ (str arg).length + 1 ≤ sp :=
      sub64_of_mapped (by omega) (by unfold PGSIZE at hl; omega) (hu ▸ hva 0 (by omega))
    rw [hsub] at hu
    have hu16 : u % 16 = 0 := by omega
    refine wp_then (ih h1 (fun a ha => hstr a (List.mem_cons_of_mem _ ha)) (fun a ha => hlen a (List.mem_cons_of_mem _ ha))
      (show u ≤ n * PGSIZE by omega) (by omega)) fun r2 t2 h2r => ⟨h2r.1, fun sp' us heq => ?_⟩
    obtain ⟨h2, hrest⟩ := h2r
    rcases r2 with - | ⟨sp2, us2⟩
    · cases heq
    obtain ⟨rfl, rfl⟩ := Prod.mk.inj (Option.some.inj heq)
    obtain ⟨hb, hst, hframe⟩ := hrest _ _ rfl
    have hsple := hst.le
    refine ⟨hb, ⟨hu16, by omega, fun k hk => ?_, hst⟩, fun x hx hout => ?_⟩
    · rw [hframe (u + k) (by omega) (by omega), hmem, if_pos (by omega), Nat.add_sub_cancel_left]
    · rw [hframe x hx (by omega), hmem, if_neg (by omega)]

theorem Stacked.length {M : Nat → Option UInt8} {strs : List (List UInt8)} {us : List Nat} {hi lo : Nat}
    (h : Stacked M strs us hi lo) : us.length = strs.length := by
  induction strs generalizing us hi with
  | nil =>
    cases us with
    | nil => rfl
    | cons u us => exact h.elim
  | cons str strs ih =>
    cases us with
    | nil => exact h.elim
    | cons u us => rw [List.length_cons, List.length_cons, ih h.2.2.2]

theorem length_wordBytes (ws : List Nat) : (wordBytes ws).length = 8 * ws.length := by
  unfold wordBytes
  simp [List.length_flatMap, Nat.mul_comm]

theorem Stacked.get {M : Nat → Option UInt8} {strs : List (List UInt8)} {us : List Nat} {hi lo i : Nat}
    (h : Stacked M strs us hi lo) (hlt : i < strs.length) : us.getD i 0 % 16 = 0 ∧ lo ≤ us.getD i 0 ∧
      us.getD i 0 + ((strs.getD i []).length + 1) ≤ hi ∧
      ∀ k ≤ (strs.getD i []).length, M (us.getD i 0 + k) = some ((strs.getD i [] ++ [0]).getD k 0) := by
  induction strs generalizing us hi i with
  | nil => exact absurd hlt (Nat.not_lt_zero i)
  | cons str strs ih =>
    cases us with
    | nil => exact h.elim
    | cons u us =>
      obtain ⟨hal, hu, hbytes, hrest⟩ := h
      have hle := hrest.le
      cases i with
      | zero => exact ⟨hal, hle, hu, hbytes⟩
      | succ i =>
        obtain ⟨h1, h2, h3, h4⟩ := ih hrest (Nat.lt_of_succ_lt_succ hlt)
        simp only [List.getD_cons_succ]
        exact ⟨h1, h2, by omega, h4⟩

theorem Stacked.apart {M : Nat → Option UInt8} {strs : List (List UInt8)} {us : List Nat} {hi lo i j : Nat}
    (h : Stacked M strs us hi lo) (hij : i < j) (hlt : j < strs.length) :
    us.getD j 0 + ((strs.getD j []).length + 1) ≤ us.getD i 0 := by
  induction strs generalizing us hi i j with
  | nil => exact absurd hlt (Nat.not_lt_zero j)
  | cons str strs ih =>
    cases us with
    | nil => exact h.elim
    | cons u us =>
      obtain ⟨-, -, -, hrest⟩ := h
      obtain ⟨j, rfl⟩ : ∃ k, j = k + 1 := ⟨j - 1, by omega⟩
      have hj := Nat.lt_of_succ_lt_succ hlt
      cases i with
      | zero => exact (hrest.get hj).2.2.1
      | succ i => exact ih hrest (Nat.lt_of_succ_lt_succ hij) hj

/-- The arguments `strs` on a stack that ends at `sz`: the strings at `us`, and at `sp` the array of these addresses.
    -/
structure ArgsAt (M : Nat → Option UInt8) (strs : List (List UInt8)) (sz sp : Nat) (us : List Nat) : Prop where
  count : us.length = strs.length
  base : sz - USERSTACK * PGSIZE ≤ sp
  aligned : sp % 16 = 0
  words : ∀ k < 8 * (strs.length + 1), M (sp + k) = some ((wordBytes (us ++ [0])).getD k 0)
  strings : ∀ i < strs.length, us.getD i 0 % 16 = 0 ∧ sp + 8 * (strs.length + 1) ≤ us.getD i 0 ∧
    us.getD i 0 + ((strs.getD i []).length + 1) ≤ sz ∧
    ∀ k ≤ (strs.getD i []).length, M (us.getD i 0 + k) = some ((strs.getD i [] ++ [0]).getD k 0)
  apart : ∀ i j, i < j → j < strs.length → us.getD j 0 + ((strs.getD j []).length + 1) ≤ us.getD i 0

theorem wp_pushArgs_mem {str : Nat → List UInt8} {argv : List Nat} (h : Image L X s T p n tf t)
    (hstr : ∀ a ∈ argv, ∀ t', Image L X s T p n tf t' → t'.cstr a = str a) (hlen : ∀ a ∈ argv, (str a).length ≤ PGSIZE)
    (hargc : argv.length < MAXARG) :
    wp (pushArgs p (n * PGSIZE) argv) (fun r t' => Image L X s T p n tf t' ∧ ∀ sp, r = some sp →
      sp < n * PGSIZE ∧ (∃ us, ArgsAt (umem t' p) (argv.map str) (n * PGSIZE) sp us) ∧
      ∀ x < n * PGSIZE - USERSTACK * PGSIZE, umem t' p x = umem t p x) (Vm.Looked L) t := by
  have hsize := image_size h
  have hmax : MAXARG = 32 := rfl
  unfold pushArgs
  obtain ⟨base, hbase⟩ : ∃ b, b = n * PGSIZE - USERSTACK * PGSIZE := ⟨_, rfl⟩
  rw [← hbase]
  dsimp only
  refine wp_then (wp_pushStrings_mem h hstr hlen (le_refl _) (by omega)) fun r t1 ⟨h1, hpush⟩ => ?_
  rcases r with - | ⟨sp1, us⟩
  · exact ⟨h1, nofun⟩
  obtain ⟨hb1, hst, hframe⟩ := hpush _ _ rfl
  have hsp1 := hst.le
  have hus : us.length = argv.length := by rw [hst.length, List.length_map]
  dsimp only
  obtain ⟨sp, hsp⟩ : ∃ u, u = sub64 sp1 ((us.length + 1) * 8) - sub64 sp1 ((us.length + 1) * 8) % 16 := ⟨_, rfl⟩
  rw [← hsp, wp_ite]
  split
  · exact ⟨h1, nofun⟩
  next hroom =>
  obtain ⟨r, t2, hrun, hcopied⟩ := (image_userTable h1).copied sp (wordBytes (us ++ [0]))
  have h2 := image_copyout h1 hrun
  rw [wp_bind]
  refine wp_of_ok hrun ?_
  rw [wp_ite]
  split
  · exact ⟨h2, nofun⟩
  next hr =>
  obtain ⟨hva, hmem⟩ := copyout_umem (image_userTable h1) hr hcopied
  have hwords : (wordBytes (us ++ [0])).length = 8 * (argv.length + 1) := by
    rw [length_wordBytes, List.length_append, hus]
    rfl
  rw [hwords] at hva hmem
  obtain ⟨hsub, hle⟩ : sub64 sp1 ((us.length + 1) * 8) = sp1 - (us.length + 1) * 8 ∧ (us.length + 1) * 8 ≤ sp1 :=
    sub64_of_mapped (by omega) (by omega) (hsp ▸ hva 0 (by omega))
  rw [hsub, hus] at hsp
  rw [hus] at hle
  refine ⟨h2, fun sp' heq => ?_⟩
  obtain rfl := Option.some.inj heq
  have hst2 : Stacked (umem t2 p) (argv.map str) us (n * PGSIZE) sp1 := hst.congr fun x h1 h2 => by rw [hmem, if_neg (by omega)]
  have hcount : (argv.map str).length = argv.length := List.length_map ..
  refine ⟨by omega, ⟨us, hst.length, by omega, by omega, fun k hk => ?_, fun j hj => ?_, fun i j hij hj => hst2.apart hij hj⟩,
    fun x hx => ?_⟩
  · rw [hcount] at hk
    rw [hmem, if_pos (by omega), Nat.add_sub_cancel_left]
  · obtain ⟨h3, h4, h5, h6⟩ := hst2.get hj
    rw [hcount]
    exact ⟨h3, by omega, h5, h6⟩
  · rw [hmem, if_neg (by omega), hframe x (by omega) (by omega)]

theorem umem_congr {t' : Vm.Sys} {x : Nat} (htab : ∀ q, Within t p q → t'.page q = t.page q)
    (hbyte : ∀ a, phys t p readable x = some a → t'.page (pgRoundDown a) = t.page (pgRoundDown a)) : umem t' p x = umem t p x := by
  unfold umem
  rw [(same_of_pages htab).phys]
  cases ha : phys t p readable x with
  | none => rfl
  | some a => simp only [Option.map_some, Sys.byte, hbyte a ha]

theorem setWord_frame {a o v : Nat} (ha : a % PGSIZE = 0) (ho : o < PGSIZE) :
    t.setWord (a + o) v = t.setPage a ((t.page a).put o 8 v) := by
  have hmod : (a + o) % PGSIZE = o := by
    simp only [PGSIZE] at ha ho ⊢
    omega
  rw [Sys.setWord, pgRoundDown_add ha ho, hmod]

theorem committed_page {i : Slot} {path : List UInt8} {sz sp entry : Nat} (htf : (t.proc i).trapframe % PGSIZE = 0) :
    (committed t i path p sz sp entry).page = Function.update t.page (t.proc i).trapframe
      ((((t.page (t.proc i).trapframe).put tfA1 8 sp).put tfEpc 8 entry).put tfSp 8 sp) := by
  unfold committed
  simp only [setWord_frame htf (show tfA1 < PGSIZE by decide), setWord_frame htf (show tfEpc < PGSIZE by decide),
    setWord_frame htf (show tfSp < PGSIZE by decide), Sys.setPage, Sys.setProc, Function.update_self, Function.update_idem]

theorem switched_pages {i : Slot} {sz : Nat} (h : Switched L s T i p n sz t) (h0 : Vm.Inv L s T)
    (hi : (s.proc i).state ≠ .unused) :
    wp (procFreepagetable L (s.proc i).pagetable (s.proc i).sz) (fun _ t' => t'.proc = t.proc ∧ ∀ o pa, o.tab ≠ some none →
      own t ⟨some (s.proc i).pagetable, T.pages⟩ o = some pa → t'.page pa = t.page pa) (Vm.Looked L) t := by
  obtain ⟨-, -, hsp⟩ := (h0.slots i).used hi
  have hold := h.oldSpace hsp
  have hle := h0.pages_le hi
  -- everything is pinned but what belongs to the old table
  have : (snap t ⟨some (s.proc i).pagetable, T.pages⟩ (fun r => r ≠ none) fun o => o.tab ≠ some none).Open none :=
    ⟨fun hne => hne rfl⟩
  have hrep : Rep L (snap t ⟨some (s.proc i).pagetable, T.pages⟩ (fun r => r ≠ none) fun o => o.tab ≠ some none) t
    ⟨some (s.proc i).pagetable, T.pages⟩ := h.rep.snap
  refine wp_procFreepagetable hrep rfl hold (fun v _ hv => ?_) fun t1 ht1 hem => ?_
  · exact h.rep.snap_none (h.rep.own_user (Nat.lt_of_lt_of_le hv hle) (hold.user.mapped v hv)) fun hne => hne rfl
  · obtain ⟨hend, -⟩ := ht1.endTab rfl hem.barren
    refine ⟨hem.kept.proc, fun o pa ho hown => hend.page_snap .refl hown ho fun r d k he hr => ho ?_⟩
    rw [he, hr]
    rfl

theorem umem_outside {T : Temps} {r : Tab} {t' : Vm.Sys} {x : Nat} (hroot : root t T r = some p)
    (htop : KernelTop t T r) (hpage : ∀ o pa, o.tab = some r → own t T o = some pa → t'.page pa = t.page pa) :
    umem t' p x = umem t p x := by
  refine umem_congr (fun q ⟨d, k, hd, hq⟩ => ?_) fun a ha => hpage _ _ rfl (own_of_phys hroot htop ha)
  exact hpage (.node r d k) q rfl (by rw [own_node hd, nd_of_root hroot, hq])

structure Committed (t : Vm.Sys) (i : Slot) (p sz tf sp entry : Nat) (t' : Vm.Sys) : Prop where
  pagetable : (t'.proc i).pagetable = p
  sz : (t'.proc i).sz = sz
  mem : ∀ x, umem t' p x = umem t p x
  trapframe : (t'.proc i).trapframe = tf
  a1 : t'.word (tf + tfA1) = sp
  sp : t'.word (tf + tfSp) = sp
  epc : t'.word (tf + tfEpc) = entry

theorem wp_execCommit_mem {i : Slot} {path : List UInt8} {sz sp entry : Nat} (h0 : Vm.Inv L s T)
    (hi : (s.proc i).state ≠ .unused) (h : Image L X s T p (pages sz) (s.proc i).trapframe t) (hsp : sp < 2 ^ 64) (hentry : entry < 2 ^ 64) :
    wp (execCommit L i path p sz sp entry) (fun _ t' => Committed t i p sz (s.proc i).trapframe sp entry t') (Vm.Looked L) t := by
  obtain ⟨-, htf, -⟩ := (h0.slots i).used hi
  have hproc : t.proc i = s.proc i := by rw [h.kept.proc]
  have hframe : own t ⟨some p, T.pages⟩ (.frame i) = some (s.proc i).trapframe := by simp only [own, ptr, hproc, if_neg htf]
  have hal := (h.rep.stock hframe).1
  have hw : Switched L s T i p (pages sz) sz (committed t i path p sz sp entry) := h.switched h0 hi
  have hpages : (committed t i path p sz sp entry).page = _ := committed_page (by rw [hproc]; exact hal)
  rw [hproc] at hpages
  rw [wp_execCommit_iff, hproc]
  refine wp_post (switched_pages hw h0 hi) fun _ t' ht => ?_
  obtain ⟨hproc', hkept⟩ := ht
  generalize committed t i path p sz sp entry = u at *
  have hroot : root u ⟨some (s.proc i).pagetable, T.pages⟩ (some i) = some p := by
    rw [← hw.pagetable]
    exact root_slot (by rw [hw.pagetable]; exact h.root_ne_zero)
  have hframe' : own u ⟨some (s.proc i).pagetable, T.pages⟩ (.frame i) = some (s.proc i).trapframe := by
    simp only [own, ptr, hw.trapframe, if_neg htf]
  have htfpage : t'.page (s.proc i).trapframe =
      (((t.page (s.proc i).trapframe).put tfA1 8 sp).put tfEpc 8 entry).put tfSp 8 sp := by
    rw [hkept (.frame i) _ (by rintro ⟨⟩) hframe', hpages, Function.update_self]
  have hword : ∀ o < PGSIZE, t'.word ((s.proc i).trapframe + o) = (t'.page (s.proc i).trapframe).le o 8 := fun o ho => by
    have hmod : ((s.proc i).trapframe + o) % PGSIZE = o := by
      simp only [PGSIZE] at hal ho ⊢
      omega
    rw [Sys.word, pgRoundDown_add hal ho, hmod]
  refine ⟨by rw [hproc', hw.pagetable], by rw [hproc', hw.size], fun x => ?_, by rw [hproc', hw.trapframe], ?_, ?_, ?_⟩
  · have hnew : umem t' p x = umem u p x := umem_outside hroot hw.space.kernelTop fun o pa ho hown =>
      hkept o pa (by rw [ho]; rintro ⟨⟩) hown
    refine hnew.trans (umem_outside h.root h.space.kernelTop fun o pa ho hown => ?_)
    rw [hpages, Function.update_of_ne]
    rintro rfl
    rw [h.rep.inj hown hframe] at ho
    cases ho
  · rw [hword _ (by decide), htfpage, Bytes.le_put_of_disjoint (by decide), Bytes.le_put_of_disjoint (by decide),
      Bytes.le_put (by decide) hsp]
  · rw [hword _ (by decide), htfpage, Bytes.le_put (by decide) hsp]
  · rw [hword _ (by decide), htfpage, Bytes.le_put_of_disjoint (by decide), Bytes.le_put (by decide) hentry]

/-- Process `i` is about to run a program: its memory is `m` up to the guard page, then comes its stack. -/
structure Launched (m : Nat → UInt8) (strs : List (List UInt8)) (entry : Nat) (t : Vm.Sys) (i : Slot) : Prop where
  size : PGSIZE ∣ (t.proc i).sz ∧ (USERSTACK + 1) * PGSIZE ≤ (t.proc i).sz
  below : ∀ x < (t.proc i).sz - (USERSTACK + 1) * PGSIZE, umem t (t.proc i).pagetable x = some (m x)
  guard : ∀ x, (t.proc i).sz - (USERSTACK + 1) * PGSIZE ≤ x → x < (t.proc i).sz - USERSTACK * PGSIZE →
    umem t (t.proc i).pagetable x = none
  args : ∃ sp us, t.word ((t.proc i).trapframe + tfA1) = sp ∧ t.word ((t.proc i).trapframe + tfSp) = sp ∧
    ArgsAt (umem t (t.proc i).pagetable) strs (t.proc i).sz sp us
  epc : t.word ((t.proc i).trapframe + tfEpc) = entry

theorem wp_execBad_neg [X.Open none] {sz : Nat} (h0 : Vm.Inv L s T) (htab : T.tab = none) (h : Image L X s T p (pages sz) tf t) :
    wp (execBad L p sz) (fun r _ => r = -1) (Vm.Looked L) t := by
  have hbad := wp_execBad h0 htab h
  unfold execBad at hbad ⊢
  rw [wp_bind] at hbad ⊢
  exact wp_post hbad fun _ _ _ => rfl

theorem wp_execStack_mem [X.Open none] {i : Slot} {path : List UInt8} {argv : List Nat} {sz entry : Nat} {str : Nat → List UInt8}
    (h0 : Vm.Inv L s T) (htab : T.tab = none) (hi : (s.proc i).state ≠ .unused)
    (h : Contains L X s T p (pages sz) (s.proc i).trapframe m t) (hentry : entry < 2 ^ 64)
    (hstr : ∀ a ∈ argv, ∀ n t', Image L X s T p n (s.proc i).trapframe t' → t'.cstr a = str a)
    (hlen : ∀ a ∈ argv, (str a).length ≤ PGSIZE) (hargc : argv.length < MAXARG) :
    wp (execStack L i path argv p sz entry) (fun r t' => 0 ≤ r → r = argv.length ∧ Launched m (argv.map str) entry t' i)
      (Vm.Looked L) t := by
  have hn := h.image.le_pages
  have hP : PGSIZE = 4096 := rfl
  have hS : USERSTACK = 2 := rfl
  obtain ⟨hup, hnew, hguard⟩ := h.image.stack_sizes
  have hbad : ∀ {r : Int} {Q : Prop}, r = -1 → 0 ≤ r → Q := fun hr h0 => absurd h0 (by omega)
  unfold execStack
  dsimp only
  rw [hup, wp_bind, hnew]
  have hpages : pages (pages sz * PGSIZE) = pages sz := pages_mul _
  refine wp_uvmalloc_mem (m := m) (by rw [hpages]; exact h.image) (by rw [hpages]; exact h.holds) (by rw [hpages]; exact h.zero)
    (by decide) (fun t1 h1 => ?_) (fun hshrink => ?_) fun t1 hle h1 hm1 => ?_
  · rw [if_pos rfl]
    exact wp_post (wp_execBad_neg h0 htab h1) fun _ _ hr => hbad hr
  · rw [hP] at hshrink
    omega
  rw [pages_mul] at h1 hm1
  rw [if_neg (by rw [hP]; omega), wp_bind, hguard]
  refine wp_uvmclear_mem h1 (show pages sz < pages sz + 3 by omega) fun t2 h2 hm2 => ?_
  refine wp_then (wp_pushArgs_mem h2 (fun a ha t' ht' => hstr a ha _ t' ht') hlen hargc) fun r t3 ⟨h3, hargs⟩ => ?_
  have hpages' : pages ((pages sz + 3) * PGSIZE) = pages sz + 3 := pages_mul _
  cases r with
  | none => exact wp_post (wp_execBad_neg h0 htab (by rw [hpages']; exact h3)) fun _ _ hr => hbad hr
  | some sp =>
    obtain ⟨hsp, ⟨us, hat⟩, hframe⟩ := hargs sp rfl
    have hsize := image_size h3
    dsimp only
    refine wp_then (wp_execCommit_mem h0 hi (by rw [hpages']; exact h3) (by omega) hentry) fun _ t4 h4 => ?_
    have hmem : umem t4 p = umem t3 p := funext h4.mem
    refine fun _ => ⟨rfl, ?_⟩
    constructor
    · rw [h4.sz]
      exact ⟨Nat.dvd_mul_left _ _, by rw [hP, hS]; omega⟩
    · rw [h4.sz, h4.pagetable, hmem]
      intro x hx
      obtain ⟨h1, h2, h3⟩ : x < (pages sz + 3) * PGSIZE - USERSTACK * PGSIZE ∧ x < (pages sz + 3) * PGSIZE ∧
          x / PGSIZE ≠ pages sz := by
        simp only [hP, hS] at hx ⊢
        omega
      rw [hframe x h1, hm2 x h2, if_neg h3, hm1 x h2]
    · rw [h4.sz, h4.pagetable, hmem]
      intro x hx hx'
      obtain ⟨h2, h3⟩ : x < (pages sz + 3) * PGSIZE ∧ x / PGSIZE = pages sz := by
        simp only [hP, hS] at hx hx' ⊢
        omega
      rw [hframe x hx', hm2 x h2, if_pos h3]
    · rw [h4.sz, h4.pagetable, hmem, h4.trapframe]
      exact ⟨sp, us, h4.a1, h4.sp, hat⟩
    · rw [h4.trapframe]
      exact h4.epc

theorem cstr_length {a : Nat} : (t.cstr a).length ≤ PGSIZE := by
  have hbytes : (t.bytes a PGSIZE).length = PGSIZE := by
    unfold Sys.bytes
    rw [List.length_map, List.length_range]
  exact Nat.le_trans (List.takeWhile_prefix _).length_le (Nat.le_of_eq hbytes)

theorem cstr_kept {a : Nat} (h0 : Vm.Inv L s T) (ha : a ∈ T.pages) (h : Image L (snapAll s T) s T p n tf t) :
    t.cstr a = s.cstr a := by
  have hown : own s T (.temp a) = some a := Rep.own_temp ha
  have hal := (h0.rep.stock hown).1
  have hdown : pgRoundDown a = a := by
    simp only [pgRoundDown, PGSIZE] at hal ⊢
    omega
  have hpage : t.page a = s.page a := h.rep.page_snap .refl hown trivial (by rintro _ _ _ ⟨⟩)
  simp only [Sys.cstr, Sys.bytes, hdown, hpage]

def elfOf (l : List UInt8) : Elfhdr := .ofBytes (Fs.readBytes l 0 Elfhdr.size)

def program (l : List UInt8) : Nat → UInt8 := loaded l (headers l (elfOf l).phnum ((elfOf l).phoff % 2 ^ 32)) fun _ => 0

theorem wp_exec_mem {i : Slot} {found : Option (List UInt8)} (path : List UInt8) {argv : List Nat} (h : Vm.Inv L s T)
    (htab : T.tab = none) (hused : (s.proc i).state ≠ .unused) (hfound : ∀ l ∈ found, l.length < 2 ^ 32)
    (hargs : ∀ a ∈ argv, a ∈ T.pages) (hargc : argv.length < MAXARG) :
    wp (Vm.exec L i (fun _ => found.map image) path argv) (fun r t => 0 ≤ r → ∃ l ∈ found, r = argv.length ∧
      Launched (program l) (argv.map s.cstr) (elfOf l).entry t i) (Vm.Looked L) s := by
  have hbad : ∀ {r : Int} {Q : Prop}, r = -1 → 0 ≤ r → Q := fun hr h0 => absurd h0 (by omega)
  have hX : Rep L (snapAll s T) s T := h.rep.snap
  refine wp_exec_header h hX htab hused (fun _ _ _ => hbad rfl) fun ip hip p s1 himage => ?_
  obtain ⟨l, hl, rfl⟩ := Option.map_eq_some_iff.mp hip
  have hempty : Contains L (snapAll s T) s T p (pages 0) (s.proc i).trapframe (fun _ => 0) s1 := by
    refine ⟨himage, fun x hx => ?_, fun _ _ => rfl⟩
    rw [pages_zero, Nat.zero_mul] at hx
    exact absurd hx (Nat.not_lt_zero x)
  refine wp_post (wp_loadSegments_mem (hfound l hl) hempty) fun r s2 ⟨h2, hm2⟩ => ?_
  obtain ⟨sz, ok⟩ := r
  cases ok with
  | false => exact wp_post (wp_execBad_neg h htab h2) fun _ _ hr => hbad hr
  | true =>
    exact wp_post (wp_execStack_mem h htab hused (hm2 rfl) field_lt (fun a ha n t' ht' => cstr_kept h (hargs a ha) ht')
      (fun _ _ => cstr_length) hargc) fun r t hr h0 => ⟨l, hl, hr h0⟩

end

section
variable {sb : Fs.Superblock} {L : Layout} {s : Sys} {T : Temps} {p : Fin NPROC} {cwd : Fin NINODE}

end

end Xv6.Kern
