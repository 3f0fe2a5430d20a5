import Xv6.Fs.Reading
import Xv6.Mkfs.Image

/-! The image that `main` of `mkfs/mkfs.c` writes. -/

namespace Xv6.Mkfs
open Lib Fs

def Input.contents (f : Input) : List UInt8 := f.reads.flatten

def rootEntries (fs : List Input) : List Dirent :=
  Dirent.make [dot] ROOTINO :: Dirent.make [dot, dot] ROOTINO :: fs.mapIdx fun i f => Dirent.make f.name (2 + i)

def filesOf (fs : List Input) (i : Nat) : List UInt8 :=
  if i = ROOTINO then (rootEntries fs).flatMap Dirent.bytes
  else if 2 ≤ i then ((fs[i - 2]?).map Input.contents).getD [] else []

def total (fs : List Input) : Nat := need (DESIZE * (fs.length + 2)) + (fs.map fun f => need f.contents.length).sum

/-- There are inodes and blocks enough, and no file is too long. -/
structure Room (fs : List Input) : Prop where
  inodes : fs.length + 1 ≤ NINODES - 1
  blocks : nmeta + total fs ≤ FSSIZE
  size : ∀ f ∈ fs, f.contents.length ≤ MAXFILE * BSIZE

def Asserts (fs : List Input) : Prop := ∀ f ∈ fs, slash ∉ f.shortname ∧ f.name.length ≤ DIRSIZ

structure Fits (fs : List Input) : Prop extends Room fs where
  name : Asserts fs

theorem length_root (fs : List Input) : ((rootEntries fs).flatMap Dirent.bytes).length = DESIZE * (fs.length + 2) := by
  have h : ∀ l : List Dirent, (l.flatMap Dirent.bytes).length = DESIZE * l.length := by
    intro l
    induction l with
    | nil => rfl
    | cons de l ih => rw [List.flatMap_cons, List.length_append, ih, length_bytes, List.length_cons, Nat.mul_succ, Nat.add_comm]
  rw [h]
  simp [rootEntries]

section Steps
variable {m : Image} {D : Nat → Dinode} {F : Nat → List UInt8} {a : Nat}

theorem addReads_spec (ha : a < NINODES) (reads : List (List UInt8)) (h : Good m D F)
    (hmax : (F a).length + reads.flatten.length ≤ MAXFILE * BSIZE)
    (hfit : m.freeblock + need ((F a).length + reads.flatten.length) ≤ FSSIZE + need (F a).length) :
    ∃ m' d', addReads a reads m = .ok m' ∧ Good m' (Function.update D a d') (Function.update F a (F a ++ reads.flatten)) ∧
      m'.freeblock + need (F a).length = m.freeblock + need ((F a).length + reads.flatten.length) ∧
      m'.freeinode = m.freeinode ∧ d'.type = (D a).type ∧ d'.nlink = (D a).nlink := by
  induction reads generalizing m D F with
  | nil =>
    refine ⟨m, D a, rfl, ?_, rfl, rfl, rfl, rfl⟩
    rwa [List.flatten_nil, List.append_nil, Function.update_eq_self, Function.update_eq_self]
  | cons buf rest ih =>
    rw [List.flatten_cons, List.length_append] at hmax hfit
    have hmono : need ((F a).length + buf.length) ≤ need ((F a).length + (buf.length + rest.flatten.length)) :=
      need_mono (by omega)
    obtain ⟨m₁, d₁, hrun, hgood, hfree, hino, htype, hnlink⟩ := iappend_spec h ha (p := buf) (by omega) (by omega)
    have hlen : (Function.update F a (F a ++ buf) a).length = (F a).length + buf.length := by
      rw [Function.update_self, List.length_append]
    obtain ⟨m₂, d₂, hrun', hgood', hfree', hino', htype', hnlink'⟩ := ih hgood (by omega)
      (by rw [hlen, Nat.add_assoc]; omega)
    rw [hlen, Nat.add_assoc] at hfree'
    rw [Function.update_self] at htype' hnlink'
    rw [Function.update_idem, Function.update_idem, Function.update_self, List.append_assoc] at hgood'
    rw [List.flatten_cons, List.length_append]
    refine ⟨m₂, d₂, ?_, hgood', by omega, hino'.trans hino, htype'.trans htype, hnlink'.trans hnlink⟩
    rw [addReads, hrun]
    exact hrun'

theorem ialloc_spec (h : Good m D F) (hi : m.freeinode < NINODES) (hD : D m.freeinode = Dinode.zero)
    (hF : F m.freeinode = []) (type : Int16) :
    ∃ m', m.ialloc type = .ok (m.freeinode, m') ∧ Good m' (Function.update D m.freeinode (Image.newInode type)) F ∧
      m'.freeblock = m.freeblock ∧ m'.freeinode = m.freeinode + 1 := by
  have hlaid : Laid { m with freeinode := m.freeinode + 1 } D := ⟨h.laid.len, h.laid.front, h.laid.used, h.laid.inj, h.laid.clean⟩
  have hcont : Contents { m with freeinode := m.freeinode + 1 } D F := ⟨h.contents.block, h.contents.pointer, h.contents.byte⟩
  refine ⟨_, ?_, good_winode hlaid hcont hi (by rw [hD]; rfl) (by rw [hF]; rfl) (fun i hin _ => h.inode i hin)
    fun i _ => h.size i, rfl, rfl⟩
  unfold Image.ialloc
  rw [winode_spec hlaid hi]
  rfl

end Steps

section Files
variable {m : Image} {D : Nat → Dinode} {fs : List Input}

structure Done (fs : List Input) (m : Image) (D : Nat → Dinode) : Prop where
  good : Good m D (filesOf fs)
  freeinode : m.freeinode = 2 + fs.length
  freeblock : m.freeblock = nmeta + total fs
  root : (D ROOTINO).type = T_DIR ∧ (D ROOTINO).nlink = 1
  file : ∀ i < fs.length, (D (2 + i)).type = T_FILE ∧ (D (2 + i)).nlink = 1
  rest : ∀ i, i = 0 ∨ 2 + fs.length ≤ i → D i = Dinode.zero

theorem filesOf_root (fs : List Input) : filesOf fs ROOTINO = (rootEntries fs).flatMap Dirent.bytes := if_pos rfl

theorem filesOf_file {i : Nat} (hi : i < fs.length) : filesOf fs (2 + i) = (fs.get ⟨i, hi⟩).contents := by
  unfold filesOf ROOTINO
  rw [if_neg (by omega), if_pos (by omega), Nat.add_sub_cancel_left, List.getElem?_eq_getElem hi]
  rfl

theorem filesOf_rest {i : Nat} (hi : 2 + fs.length ≤ i) : filesOf fs i = [] := by
  unfold filesOf ROOTINO
  rw [if_neg (by omega), if_pos (by omega), List.getElem?_eq_none (by omega)]
  rfl

theorem filesOf_append (fs : List Input) (f : Input) :
    filesOf (fs ++ [f]) = Function.update (Function.update (filesOf fs) ROOTINO
      (filesOf fs ROOTINO ++ (Dirent.make f.name (2 + fs.length)).bytes)) (2 + fs.length) f.contents := by
  funext i
  by_cases h1 : i = 2 + fs.length
  · subst h1
    rw [Function.update_self, filesOf_file (by rw [List.length_append]; exact Nat.lt_succ_self _)]
    simp
  · rw [Function.update_of_ne h1]
    by_cases h2 : i = ROOTINO
    · subst h2
      rw [Function.update_self, filesOf_root, filesOf_root]
      simp [rootEntries, List.mapIdx_append]
    · rw [Function.update_of_ne h2]
      unfold filesOf
      rw [if_neg h2, if_neg h2]
      split
      · congr 2
        by_cases hlt : i - 2 < fs.length
        · rw [List.getElem?_append_left hlt]
        · rw [List.getElem?_eq_none (by rw [List.length_append, List.length_singleton]; omega),
            List.getElem?_eq_none (by omega)]
      · rfl

theorem total_append (fs : List Input) (f : Input) :
    total (fs ++ [f]) + need (DESIZE * (fs.length + 2)) =
      total fs + need (DESIZE * (fs.length + 2) + DESIZE) + need f.contents.length := by
  unfold total
  rw [List.map_append, List.sum_append, List.length_append, List.map_singleton, List.sum_singleton, List.length_singleton,
    show DESIZE * (fs.length + 1 + 2) = DESIZE * (fs.length + 2) + DESIZE by rw [← Nat.mul_succ]]
  omega

theorem addFile_spec (h : Done fs m D) {f : Input} (hname : slash ∉ f.shortname ∧ f.name.length ≤ DIRSIZ)
    (hinodes : fs.length + 2 ≤ NINODES - 1) (hblocks : nmeta + total (fs ++ [f]) ≤ FSSIZE)
    (hsize : f.contents.length ≤ MAXFILE * BSIZE) :
    ∃ m' D', addFile m f = .ok m' ∧ Done (fs ++ [f]) m' D' := by
  have hi : 2 + fs.length < NINODES := by unfold NINODES at *; omega
  have hne : ROOTINO ≠ 2 + fs.length := by unfold ROOTINO; omega
  obtain ⟨m₁, hrun₁, hgood₁, hfree₁, hino₁⟩ := ialloc_spec h.good (by rw [h.freeinode]; exact hi)
    (h.rest _ (.inr (by rw [h.freeinode]))) (by rw [h.freeinode]; exact filesOf_rest (Nat.le_refl _)) T_FILE
  rw [h.freeinode] at hrun₁ hgood₁ hino₁
  have hlen : (filesOf fs ROOTINO).length = DESIZE * (fs.length + 2) := by rw [filesOf_root, length_root]
  have htotal := total_append fs f
  have hmono : need (DESIZE * (fs.length + 2)) ≤ need (DESIZE * (fs.length + 2) + DESIZE) := need_mono (by omega)
  have hfb := h.freeblock
  obtain ⟨m₂, d₂, hrun₂, hgood₂, hfree₂, hino₂, htype₂, hnlink₂⟩ :=
    iappend_spec hgood₁ (show ROOTINO < NINODES by decide) (p := (Dirent.make f.name (2 + fs.length)).bytes)
      (by rw [hlen, length_bytes]; unfold DESIZE MAXFILE NDIRECT NINDIRECT BSIZE NINODES at *; omega)
      (by rw [hlen, length_bytes]; omega)
  rw [hlen, length_bytes] at hfree₂
  have hempty : Function.update (filesOf fs) ROOTINO (filesOf fs ROOTINO ++ (Dirent.make f.name (2 + fs.length)).bytes)
      (2 + fs.length) = [] := by
    rw [Function.update_of_ne hne.symm, filesOf_rest (Nat.le_refl _)]
  have hneed : need 0 = 0 := by decide
  obtain ⟨m₃, d₃, hrun₃, hgood₃, hfree₃, hino₃, htype₃, hnlink₃⟩ := addReads_spec hi f.reads hgood₂
    (by rw [hempty]; simpa [Input.contents] using hsize)
    (by
      rw [hempty, List.length_nil, Nat.zero_add, hneed]
      change _ + need f.contents.length ≤ _
      omega)
  rw [hempty, List.length_nil, Nat.zero_add, hneed] at hfree₃
  change _ = _ + need f.contents.length at hfree₃
  rw [hempty, List.nil_append] at hgood₃
  change Good _ _ (Function.update _ _ f.contents) at hgood₃
  rw [← filesOf_append] at hgood₃
  rw [Function.update_of_ne hne] at htype₂ hnlink₂
  rw [Function.update_of_ne hne.symm, Function.update_self] at htype₃ hnlink₃
  refine ⟨m₃, _, ?_, hgood₃, ?_, by omega, ?_, fun i hlt => ?_, fun i hrest => ?_⟩
  · unfold addFile
    rw [if_neg (by rw [not_or]; exact ⟨hname.1, by omega⟩), hrun₁]
    change (addEntry m₁ f.name (2 + fs.length) >>= _) = _
    unfold addEntry
    rw [hrun₂]
    exact hrun₃
  · rw [hino₃, hino₂, hino₁, List.length_append, List.length_singleton]
    omega
  · rw [Function.update_of_ne hne, Function.update_self, htype₂, hnlink₂]
    exact h.root
  · rw [List.length_append, List.length_singleton] at hlt
    by_cases hlast : i = fs.length
    · subst hlast
      rw [Function.update_self, htype₃, hnlink₃]
      exact ⟨rfl, rfl⟩
    · rw [Function.update_of_ne (by omega), Function.update_of_ne (by unfold ROOTINO; omega), Function.update_of_ne (by omega)]
      exact h.file i (by omega)
  · rw [List.length_append, List.length_singleton] at hrest
    rw [Function.update_of_ne (by omega), Function.update_of_ne (by unfold ROOTINO; omega), Function.update_of_ne (by omega)]
    exact h.rest i (by omega)

theorem total_le (fs rest : List Input) : total fs ≤ total (fs ++ rest) := by
  unfold total
  rw [List.map_append, List.sum_append, List.length_append]
  have : need (DESIZE * (fs.length + 2)) ≤ need (DESIZE * (fs.length + rest.length + 2)) :=
    need_mono (Nat.mul_le_mul_left _ (by omega))
  omega

theorem addFiles_spec (rest : List Input) (h : Done fs m D) (hfits : Fits (fs ++ rest)) :
    ∃ m' D', addFiles rest m = .ok m' ∧ Done (fs ++ rest) m' D' := by
  induction rest generalizing fs m D with
  | nil =>
    rw [List.append_nil]
    exact ⟨m, D, rfl, h⟩
  | cons f rest ih =>
    have happ : fs ++ f :: rest = (fs ++ [f]) ++ rest := by simp
    have hinodes := hfits.inodes
    have hblocks := hfits.blocks
    rw [List.length_append, List.length_cons] at hinodes
    rw [happ] at hblocks
    have hle := total_le (fs ++ [f]) rest
    obtain ⟨m₁, D₁, hrun, hdone⟩ := addFile_spec h (hfits.name f (by simp)) (by omega) (by omega) (hfits.size f (by simp))
    rw [happ] at hfits ⊢
    obtain ⟨m₂, D₂, hrun', hdone'⟩ := ih hdone hfits
    refine ⟨m₂, D₂, ?_, hdone'⟩
    rw [addFiles, hrun]
    exact hrun'

theorem addFiles_asserts {m' : Image} (rest : List Input) (h : addFiles rest m = .ok m') : Asserts rest := by
  induction rest generalizing m with
  | nil => exact fun f hf => nomatch hf
  | cons f rest ih =>
    obtain ⟨m₁, hrun, hrest⟩ := bind_eq_ok.mp h
    intro g hg
    rcases List.mem_cons.mp hg with rfl | hg
    · unfold addFile at hrun
      split at hrun
      · exact nomatch hrun
      · rename_i hok
        rw [not_or] at hok
        exact ⟨hok.1, by omega⟩
    · exact ih hrest g hg

end Files

/-! ### The root directory and the free map -/

section Whole

theorem blank_disk {b : Nat} (hb : b ≠ 1) : blank.disk b = Bytes.zero := by
  unfold blank Image.wsect
  exact Function.update_of_ne hb _ _

theorem blank_inode (i : Nat) (_ : i < NINODES) : dinode sb blank.disk i = Dinode.zero := by
  have h : sb.IBLOCK i = i / 16 + 32 := rfl
  unfold dinode
  rw [blank_disk (by omega)]
  unfold Dinode.decode short uint
  simp only [Bytes.le_zero]
  rfl

theorem zero_addr (i : Nat) : Dinode.zero.addr i = 0 := by
  unfold Dinode.addr
  split <;> rfl

theorem zero_slot (disk : Disk) (j : Nat) : slot disk Dinode.zero j = 0 := by
  unfold slot
  rw [zero_addr, zero_addr]
  simp

theorem blank_good : Good blank (fun _ => Dinode.zero) (fun _ => []) where
  laid := by
    refine ⟨by decide, Nat.le_refl _, fun i j h => absurd (zero_slot _ j) h, fun i j _ _ h => absurd (zero_slot _ j) h,
      fun b hb => ?_⟩
    have : nmeta = 46 := by decide
    have : nmeta ≤ b := hb
    exact blank_disk (by omega)
  contents := by
    refine ⟨fun i bn => ?_, fun i => ?_, fun i x hx => absurd hx (Nat.not_lt_zero _)⟩
    · rw [fileBlock_eq_slot, zero_slot]
      simp
    · rw [zero_addr]
      simp
  inode := blank_inode
  size _ := rfl

theorem makeRoot_spec : ∃ m D, makeRoot = .ok m ∧ Done [] m D := by
  obtain ⟨m₁, hrun₁, hgood₁, hfree₁, hino₁⟩ := ialloc_spec blank_good (by decide) rfl rfl T_DIR
  have hfit : ∀ n ≤ 1024, m₁.freeblock + need (0 + n) ≤ FSSIZE + need 0 := by
    intro n hn
    have := need_mono (show 0 + n ≤ 1024 by omega)
    have h1 : need 1024 = 1 := by decide
    have h2 : blank.freeblock = 46 := by decide
    unfold FSSIZE
    omega
  obtain ⟨m₂, d₂, hrun₂, hgood₂, hfree₂, hino₂, htype₂, hnlink₂⟩ :=
    iappend_spec hgood₁ (show ROOTINO < NINODES by decide) (p := (Dirent.make [dot] ROOTINO).bytes)
      (by rw [length_bytes]; decide) (by rw [length_bytes]; exact hfit _ (by decide))
  rw [length_bytes] at hfree₂
  have hlen : (Function.update (fun _ => ([] : List UInt8)) ROOTINO ([] ++ (Dirent.make [dot] ROOTINO).bytes)
      ROOTINO).length = DESIZE := by rw [Function.update_self, List.nil_append, length_bytes]
  have hn0 : need 0 = 0 := by decide
  have hn1 : need (0 + DESIZE) = 1 := by decide
  have hn2 : need (DESIZE + DESIZE) = 1 := by decide
  have hb : blank.freeblock = nmeta := rfl
  have hnm : nmeta = 46 := by decide
  change m₂.freeblock + need 0 = m₁.freeblock + need (0 + DESIZE) at hfree₂
  obtain ⟨m₃, d₃, hrun₃, hgood₃, hfree₃, hino₃, htype₃, hnlink₃⟩ :=
    iappend_spec hgood₂ (show ROOTINO < NINODES by decide) (p := (Dirent.make [dot, dot] ROOTINO).bytes)
      (by rw [hlen, length_bytes]; decide)
      (by
        rw [hlen, length_bytes]
        unfold FSSIZE
        omega)
  rw [hlen, length_bytes] at hfree₃
  have hone : blank.freeinode = ROOTINO := rfl
  rw [hone] at hgood₃ htype₂ hnlink₂
  rw [Function.update_self] at htype₃ hnlink₃ htype₂ hnlink₂
  rw [Function.update_idem, Function.update_idem, Function.update_idem, Function.update_self] at hgood₃
  have hF : Function.update (fun _ => ([] : List UInt8)) ROOTINO
      (([] ++ (Dirent.make [dot] ROOTINO).bytes) ++ (Dirent.make [dot, dot] ROOTINO).bytes) = filesOf [] := by
    funext i
    by_cases hi : i = ROOTINO
    · subst hi
      rw [Function.update_self, filesOf_root]
      simp [rootEntries]
    · rw [Function.update_of_ne hi]
      unfold filesOf
      rw [if_neg hi]
      simp
  rw [hF] at hgood₃
  refine ⟨m₃, _, ?_, hgood₃, ?_, ?_, ?_, fun i hi => absurd hi (Nat.not_lt_zero _), fun i hi => ?_⟩
  · unfold makeRoot
    rw [hrun₁]
    change (m₁.iappend ROOTINO (Dirent.make [dot] ROOTINO).bytes >>= fun m => addEntry m [dot, dot] ROOTINO) = _
    rw [hrun₂]
    exact hrun₃
  · rw [hino₃, hino₂, hino₁]
    rfl
  · have ht : total [] = 1 := by decide
    have hn3 : need DESIZE = 1 := by decide
    omega
  · rw [Function.update_self, htype₃, hnlink₃, htype₂, hnlink₂]
    exact ⟨rfl, rfl⟩
  · rw [Function.update_of_ne]
    unfold ROOTINO
    simp only [List.length_nil] at hi
    omega

theorem testBit_usedMap {used j : Nat} (hj : j / 8 < BSIZE) : testBit (Image.usedMap used) j = decide (j < used) := by
  induction used with
  | zero =>
    unfold Image.usedMap testBit
    rw [List.range_zero, List.foldl_nil, Bytes.get_zero]
    simp
  | succ used ih =>
    have hs : Image.usedMap (used + 1) = setBit (Image.usedMap used) used := by
      unfold Image.usedMap
      rw [List.range_succ, List.foldl_append]
      rfl
    rw [hs, testBit_setBit hj, ih, Bool.eq_iff_iff]
    simp only [Bool.or_eq_true, decide_eq_true_eq]
    omega

structure Written (fs : List Input) (m : Image) (D : Nat → Dinode) : Prop where
  laid : Laid m D
  contents : Contents m D (filesOf fs)
  inode : ∀ i < NINODES, dinode sb m.disk i = D i
  freeblock : m.freeblock = nmeta + total fs
  root : (D ROOTINO).type = T_DIR ∧ (D ROOTINO).nlink = 1 ∧
    (D ROOTINO).size.toNat = (DESIZE * (fs.length + 2) / BSIZE + 1) * BSIZE
  file : ∀ i, (hi : i < fs.length) → (D (2 + i)).type = T_FILE ∧ (D (2 + i)).nlink = 1 ∧
    (D (2 + i)).size.toNat = (fs.get ⟨i, hi⟩).contents.length
  map : ∀ b < FSSIZE, inUse sb m.disk b = decide (b < m.freeblock)

theorem finish_spec {fs : List Input} {m : Image} {D : Nat → Dinode} (h : Done fs m D) (hfits : Fits fs) :
    ∃ m' D', finish m = .ok m' ∧ Written fs m' D' := by
  have hroot : ROOTINO < NINODES := by decide
  have hlen : (D ROOTINO).size.toNat = DESIZE * (fs.length + 2) := by
    rw [h.good.size, filesOf_root, length_root]
  obtain ⟨off, hoff⟩ : ∃ off, off = (DESIZE * (fs.length + 2) / BSIZE + 1) * BSIZE := ⟨_, rfl⟩
  have hsmall : off < 2 ^ 32 := by
    have := hfits.inodes
    unfold NINODES at this
    unfold DESIZE BSIZE at hoff
    omega
  have hmeta : sb.IBLOCK ROOTINO < nmeta := (iblock_lt hroot).trans bmapstart_lt
  have haddr : ((D ROOTINO).setSize off).addr = (D ROOTINO).addr := rfl
  generalize hm₁ : m.wsect (sb.IBLOCK ROOTINO) (inodeBlock sb m.disk ROOTINO ((D ROOTINO).setSize off)) = m₁
  have hlaid₁ : Laid m₁ (Function.update D ROOTINO ((D ROOTINO).setSize off)) :=
    hm₁ ▸ (h.good.laid.write_meta hmeta).1.congr (update_addr haddr)
  have hcont₁ : Contents m₁ (Function.update D ROOTINO ((D ROOTINO).setSize off)) (filesOf fs) :=
    hm₁ ▸ (h.good.contents.write_meta h.good.laid hmeta).congr (update_addr haddr)
  have hfree₁ : m₁.freeblock = m.freeblock := by rw [← hm₁]; rfl
  have hused : m₁.freeblock < BPB := by
    have := hfits.blocks
    have := h.freeblock
    unfold FSSIZE BPB BSIZE at *
    omega
  refine ⟨m₁.wsect sb.bmapstart (Image.usedMap m₁.freeblock), Function.update D ROOTINO ((D ROOTINO).setSize off), ?_,
    (hlaid₁.write_meta bmapstart_lt).1, hcont₁.write_meta hlaid₁ bmapstart_lt, fun i hi => ?_, ?_, ?_, fun i hi => ?_,
    fun b hb => ?_⟩
  · unfold finish
    rw [rinode_spec h.good.laid hroot, h.good.inode _ hroot]
    change (m.winode ROOTINO ((D ROOTINO).setSize (((D ROOTINO).size.toNat / BSIZE + 1) * BSIZE)) >>= _) = _
    rw [hlen, ← hoff, winode_spec h.good.laid hroot, hm₁]
    change m₁.balloc m₁.freeblock = _
    unfold Image.balloc
    rw [if_pos hused]
  · have hd : dinode sb m₁.disk i = Function.update D ROOTINO ((D ROOTINO).setSize off) i := by
      rw [← hm₁]
      exact dinode_winode fun _ => h.good.inode i hi
    rw [← hd]
    exact dinode_update_of_ne (by have := iblock_lt hi; omega)
  · exact hfree₁.trans h.freeblock
  · rw [Function.update_self]
    exact ⟨h.root.1, h.root.2, (UInt32.toNat_ofNat_of_lt' hsmall).trans hoff⟩
  · have hne : 2 + i ≠ ROOTINO := by unfold ROOTINO; omega
    rw [Function.update_of_ne hne]
    refine ⟨(h.file i hi).1, (h.file i hi).2, ?_⟩
    rw [h.good.size, filesOf_file hi]
  · have hbb : sb.BBLOCK b = sb.bmapstart := by
      unfold Superblock.BBLOCK BPB BSIZE
      unfold FSSIZE at hb
      omega
    unfold inUse
    rw [hbb]
    change testBit (Function.update m₁.disk sb.bmapstart (Image.usedMap m₁.freeblock) sb.bmapstart) _ = decide (b < m₁.freeblock)
    have hmod : b % BPB = b := Nat.mod_eq_of_lt (by unfold FSSIZE at hb; unfold BPB BSIZE; omega)
    rw [Function.update_self, hmod, testBit_usedMap (by unfold FSSIZE at hb; unfold BSIZE; omega)]

theorem main_spec {fs : List Input} (hfits : Fits fs) : ∃ m D, main fs = .ok m ∧ Written fs m D := by
  obtain ⟨m₁, D₁, hrun₁, hdone₁⟩ := makeRoot_spec
  obtain ⟨m₂, D₂, hrun₂, hdone₂⟩ := addFiles_spec fs hdone₁ (by simpa using hfits)
  rw [List.nil_append] at hdone₂
  obtain ⟨m₃, D₃, hrun₃, hwritten⟩ := finish_spec hdone₂ hfits
  refine ⟨m₃, D₃, ?_, hwritten⟩
  unfold main
  rw [hrun₁]
  change (addFiles fs m₁ >>= _) = _
  rw [hrun₂]
  exact hrun₃

theorem main_asserts {fs : List Input} {m : Image} (h : main fs = .ok m) : Asserts fs := by
  obtain ⟨m₁, _, h⟩ := bind_eq_ok.mp h
  obtain ⟨m₂, hfiles, _⟩ := bind_eq_ok.mp h
  exact addFiles_asserts fs hfiles

end Whole

end Xv6.Mkfs
