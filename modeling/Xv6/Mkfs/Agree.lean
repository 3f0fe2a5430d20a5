import Xv6.Mkfs.Main

/-! The kernel reads what `mkfs` writes: names, inodes, contents and the free map. -/

namespace Xv6.Mkfs
open Lib Fs

/-- The names are C strings, none is empty, `.` or `..`, and no two are the same. -/
structure Names (fs : List Input) : Prop where
  nul : ∀ f ∈ fs, (0 : UInt8) ∉ f.name
  nonempty : ∀ f ∈ fs, f.name ≠ []
  dots : ∀ f ∈ fs, f.name ≠ [dot] ∧ f.name ≠ [dot, dot]
  distinct : (fs.map Input.name).Nodup

section Lists

theorem getD_flatMap_bytes {ents : List Dirent} {k i : Nat} (hk : k < ents.length) (hi : i < DESIZE) :
    (ents.flatMap Dirent.bytes).getD (DESIZE * k + i) 0 = (ents.get ⟨k, hk⟩).bytes.getD i 0 := by
  induction ents generalizing k with
  | nil => exact absurd hk (Nat.not_lt_zero _)
  | cons de ents ih =>
    rw [List.flatMap_cons]
    cases k with
    | zero =>
      rw [Nat.mul_zero, Nat.zero_add, List.getD_append _ _ _ _ (by rw [length_bytes]; exact hi)]
      rfl
    | succ k =>
      rw [List.getD_append_right _ _ _ _ (by rw [length_bytes, Nat.mul_succ]; omega), length_bytes,
        show DESIZE * (k + 1) + i - DESIZE = DESIZE * k + i by rw [Nat.mul_succ]; omega,
        ih (Nat.lt_of_succ_lt_succ hk)]
      rfl

theorem map_getD_range (l : List UInt8) (off n : Nat) (h : off + n ≤ l.length) :
    (List.range n).map (fun i => l.getD (off + i) 0) = (l.drop off).take n := by
  refine List.ext_getElem (by simp; omega) fun i h1 _ => ?_
  rw [List.length_map, List.length_range] at h1
  rw [List.getElem_map, List.getElem_range, List.getElem_take, List.getElem_drop, List.getD_eq_getElem _ _ (by omega)]

end Lists

section Agree
variable {fs : List Input} {m : Image} {D : Nat → Dinode}

theorem slice_file (h : Written fs m D) {s : Sys} {e : Fin NINODE} {i off n : Nat} (hdisk : s.disk = m.disk)
    (hd : (s.itable e).d = D i) (hlen : off + n ≤ (filesOf fs i).length) :
    slice s e off n = ((filesOf fs i).drop off).take n := by
  rw [← map_getD_range _ _ _ hlen]
  refine List.map_congr_left fun x hx => ?_
  rw [List.mem_range] at hx
  rw [hdisk, hd, h.contents.byte i _ (by omega)]

theorem covered_file (h : Written fs m D) {s : Sys} {e : Fin NINODE} {i off n : Nat} (hdisk : s.disk = m.disk)
    (hd : (s.itable e).d = D i) (hlen : off + n ≤ (filesOf fs i).length) : Covered s e off n := by
  intro x _ hx
  rw [hdisk, hd, h.contents.block]
  have := Nat.div_mul_le_self x BSIZE
  omega

theorem length_rootEntries (fs : List Input) : (rootEntries fs).length = fs.length + 2 := by simp [rootEntries]

theorem root_entry (h : Written fs m D) {k : Nat} (hk : k < (rootEntries fs).length) :
    (List.range DESIZE).map (fun i => fileByte m.disk (D ROOTINO) (DESIZE * k + i)) =
      ((rootEntries fs).get ⟨k, hk⟩).bytes := by
  have hlen : (filesOf fs ROOTINO).length = DESIZE * (rootEntries fs).length := by
    rw [filesOf_root, length_root, length_rootEntries]
  have hle : DESIZE * k + DESIZE ≤ DESIZE * (rootEntries fs).length := by
    rw [← Nat.mul_succ]
    exact Nat.mul_le_mul_left _ hk
  have hbytes := map_getD_range ((rootEntries fs).get ⟨k, hk⟩).bytes 0 DESIZE (by rw [length_bytes, Nat.zero_add])
  rw [List.drop_zero, List.take_of_length_le (by rw [length_bytes])] at hbytes
  rw [← hbytes]
  refine List.map_congr_left fun i hi => ?_
  rw [List.mem_range] at hi
  rw [h.contents.byte _ _ (by omega), filesOf_root, getD_flatMap_bytes hk hi, Nat.zero_add]

theorem root_lists (h : Written fs m D) (hfits : Fits fs) {s : Sys} {e : Fin NINODE} (hdisk : s.disk = m.disk)
    (hd : (s.itable e).d = D ROOTINO) : Lists s e (rootEntries fs) := by
  obtain ⟨htype, -, hsize⟩ := h.root
  have hin := hfits.inodes
  have hlen : (filesOf fs ROOTINO).length = DESIZE * (rootEntries fs).length := by
    rw [filesOf_root, length_root, length_rootEntries]
  refine ⟨by rw [hd, htype], ?_, ?_, covered_file h hdisk hd (by omega), fun k hk => ?_⟩
  · rw [hd, hsize, length_rootEntries]
    unfold DESIZE BSIZE
    omega
  · rw [hd, hsize]
    unfold DESIZE BSIZE
    unfold NINODES at hin
    omega
  · unfold slice
    rw [hdisk, hd]
    exact root_entry h hk

theorem slash_name (f : Input) (h : slash ∉ f.shortname) : slash ∉ f.name := by
  unfold Input.name
  split
  · exact fun hm => h (List.mem_of_mem_drop hm)
  · exact h

theorem rootEntries_file {i : Nat} (hi : i < fs.length) (hk : 2 + i < (rootEntries fs).length) :
    (rootEntries fs).get ⟨2 + i, hk⟩ = Dirent.make (fs.get ⟨i, hi⟩).name (2 + i) := by
  simp [rootEntries, Nat.add_comm 2 i]

theorem not_named_before (hfits : Fits fs) (hnames : Names fs) {i j : Nat} (hi : i < fs.length) (hj : j < 2 + i)
    (hk : j < (rootEntries fs).length) : ((rootEntries fs).get ⟨j, hk⟩).named (fs.get ⟨i, hi⟩).name = false := by
  have hmem := List.get_mem fs ⟨i, hi⟩
  have hnul := hnames.nul _ hmem
  have hlen := (hfits.name _ hmem).2
  obtain ⟨hdot, hdots⟩ := hnames.dots _ hmem
  match j with
  | 0 => exact (named_make hnul (by decide) hlen (by decide) _).trans (decide_eq_false hdot)
  | 1 => exact (named_make hnul (by decide) hlen (by decide) _).trans (decide_eq_false hdots)
  | j + 2 =>
    have hj' : j < fs.length := by omega
    have hmem' := List.get_mem fs ⟨j, hj'⟩
    have hget : (rootEntries fs).get ⟨j + 2, hk⟩ = Dirent.make (fs.get ⟨j, hj'⟩).name (2 + j) := by simp [rootEntries]
    rw [hget, named_make hnul (hnames.nul _ hmem') hlen (hfits.name _ hmem').2]
    refine decide_eq_false fun heq => ?_
    have hlt : i < (fs.map Input.name).length := by rwa [List.length_map]
    have hlt' : j < (fs.map Input.name).length := by rwa [List.length_map]
    have hsame : (fs.map Input.name).get ⟨i, hlt⟩ = (fs.map Input.name).get ⟨j, hlt'⟩ := by
      simpa using heq
    have := Fin.val_eq_of_eq ((List.nodup_iff_injective_get.mp hnames.distinct) hsame)
    simp only at this
    omega

theorem direntAt_root (h : Written fs m D) {k : Nat} (hk : k < (rootEntries fs).length) :
    direntAt m.disk (dinode sb m.disk ROOTINO) k = (rootEntries fs).get ⟨k, hk⟩ := by
  have hget : ∀ j < DESIZE, ((List.range DESIZE).map fun i => fileByte m.disk (D ROOTINO) (DESIZE * k + i)).getD j 0 =
      fileByte m.disk (D ROOTINO) (DESIZE * k + j) := by
    intro j hj
    rw [List.getD_eq_getElem _ _ (by simpa using hj)]
    simp
  rw [h.inode ROOTINO (by decide), ← ofBytes_bytes ((rootEntries fs).get ⟨k, hk⟩), ← root_entry h hk]
  unfold direntAt Dirent.ofBytes
  rw [hget 0 (by decide), hget 1 (by decide), Nat.mul_comm k DESIZE, Dirent.mk.injEq]
  refine ⟨rfl, funext fun i => ?_⟩
  have hi := i.isLt
  rw [hget (2 + i) (by unfold DIRSIZ at hi; unfold DESIZE; omega), Nat.add_assoc]

theorem kernel_reads (h : Written fs m D) (hfits : Fits fs) (hnames : Names fs) {s : Sys} (p : Fin NPROC)
    (hdisk : s.disk = m.disk) (htab : EmptyTable s) {i : Nat} (hi : i < fs.length) :
    ∃ e t u, exec (namei sb p (slash :: (fs.get ⟨i, hi⟩).name)) s = .ok (some e, t) ∧ exec (ilock sb e) t = .ok ((), u) ∧
      (u.itable e).d.type = T_FILE ∧ (u.itable e).d.nlink = 1 ∧
      ∀ off n, off + n < 2 ^ 32 → exec (readi sb e Sink.kernel off n) u =
        .ok (((((fs.get ⟨i, hi⟩).contents.drop off).take n).length, ((fs.get ⟨i, hi⟩).contents.drop off).take n), u) := by
  have hmem := List.get_mem fs ⟨i, hi⟩
  have hin := hfits.inodes
  have hino : 2 + i < NINODES := by unfold NINODES at *; omega
  have hk : 2 + i < (rootEntries fs).length := by rw [length_rootEntries]; omega
  have hent := rootEntries_file hi hk
  have hinum : (Dirent.make (fs.get ⟨i, hi⟩).name (2 + i)).inum.toNat = 2 + i :=
    UInt16.toNat_ofNat_of_lt' (show 2 + i < 2 ^ 16 by unfold NINODES at hino; omega)
  have hroot : dinode sb s.disk ROOTINO = D ROOTINO := by rw [hdisk, h.inode _ (by decide)]
  obtain ⟨r, t, hrun, e, rfl, hdt, hinumt, hreft, hlockt, hvalidt⟩ := exec_of_wp (wp_namei_root p htab
    (hnames.nonempty _ hmem) (slash_name _ (hfits.name _ hmem).1) (hfits.name _ hmem).2
    (fun t e ht hd => root_lists h hfits (ht.trans hdisk) (hd.trans hroot)) (by rw [hroot]; exact h.root.1)
    (by rw [hroot, h.root.2.1]; decide) hk (fun j hj => not_named_before hfits hnames hi hj (hj.trans hk))
    (by
      rw [hent]
      intro h0
      rw [h0] at hinum
      exact absurd hinum (by have : (0 : UInt16).toNat = 0 := rfl; omega))
    (by rw [hent, hinum]; unfold ROOTINO; omega)
    (by
      rw [hent, named_make (hnames.nul _ hmem) (hnames.nul _ hmem) (hfits.name _ hmem).2 (hfits.name _ hmem).2]
      exact decide_eq_true rfl))
  rw [hent, hinum] at hinumt
  obtain ⟨htype, hnlink, hsize⟩ := h.file i hi
  have hinode : dinode sb t.disk (t.itable e).inum = D (2 + i) := by rw [hdt, hinumt, hdisk, h.inode _ hino]
  obtain ⟨_, u, hrun', hdu, hxu, -⟩ := exec_of_wp (wp_ilock_read hreft hlockt hvalidt (by rw [hinode, htype]; decide))
  rw [hinode] at hxu
  have hd : (u.itable e).d = D (2 + i) := by rw [hxu]
  refine ⟨e, t, u, hrun, hrun', by rw [hd, htype], by rw [hd, hnlink], fun off n hn => ?_⟩
  have hF := filesOf_file hi
  obtain ⟨len, hlen⟩ : ∃ len, len = readLen (u.itable e).d.size.toNat off n := ⟨_, rfl⟩
  have hlen' : len = min n ((fs.get ⟨i, hi⟩).contents.length - off) := by rw [hlen, hd, hsize]; rfl
  have hudisk : u.disk = m.disk := hdu.trans (hdt.trans hdisk)
  have htake : ((fs.get ⟨i, hi⟩).contents.drop off).take len = ((fs.get ⟨i, hi⟩).contents.drop off).take n := by
    rw [List.take_eq_take_iff, List.length_drop]
    omega
  by_cases hoff : off ≤ (fs.get ⟨i, hi⟩).contents.length
  · have hbound : off + len ≤ (filesOf fs (2 + i)).length := by
      rw [hF]
      omega
    obtain ⟨r, w, hread, hr, hw⟩ := exec_of_wp (wp_readi hn (hlen ▸ covered_file h hudisk hd hbound))
    rw [hread, hr, hw, ← hlen, slice_file h hudisk hd hbound, hF, htake, List.length_take, List.length_drop, ← hlen']
  · have hz : len = 0 := by omega
    have hnothing : Covered u e off (readLen (u.itable e).d.size.toNat off n) := by
      rw [← hlen, hz]
      exact fun x hx hx' => absurd hx' (by omega)
    obtain ⟨r, w, hread, hr, hw⟩ := exec_of_wp (wp_readi hn hnothing)
    rw [hread, hr, hw, ← hlen, List.length_take, List.length_drop, ← hlen', hz, List.drop_eq_nil_of_le (by omega), List.take_nil]
    rfl

/-- If the names pass its asserts, `mkfs` writes an image on which the kernel finds every file under its name, with
    the bytes of the input; the free map marks the blocks in use, each of which has one position in one file. -/
theorem kernel_agrees (hroom : Room fs) (hnames : Names fs) :
    (Asserts fs → ∃ m, main fs = .ok m) ∧
    ∀ m, main fs = .ok m →
      (∀ (s : Sys) (p : Fin NPROC), s.disk = m.disk → EmptyTable s → ∀ f ∈ fs,
        ∃ e t u, exec (namei sb p (slash :: f.name)) s = .ok (some e, t) ∧ exec (ilock sb e) t = .ok ((), u) ∧
          (u.itable e).d.type = T_FILE ∧ (u.itable e).d.nlink = 1 ∧
          ∀ off n, off + n < 2 ^ 32 → exec (readi sb e Sink.kernel off n) u =
            .ok ((((f.contents.drop off).take n).length, (f.contents.drop off).take n), u)) ∧
      direntAt m.disk (dinode sb m.disk ROOTINO) 0 = Dirent.make [dot] ROOTINO ∧
      direntAt m.disk (dinode sb m.disk ROOTINO) 1 = Dirent.make [dot, dot] ROOTINO ∧
      (∀ b < FSSIZE, inUse sb m.disk b = decide (b < m.freeblock)) ∧
      (∀ i < NINODES, ∀ j, slot m.disk (dinode sb m.disk i) j ≠ 0 →
        nmeta ≤ slot m.disk (dinode sb m.disk i) j ∧ slot m.disk (dinode sb m.disk i) j < m.freeblock) ∧
      ∀ i < NINODES, ∀ i' < NINODES, ∀ j j', slot m.disk (dinode sb m.disk i) j ≠ 0 →
        slot m.disk (dinode sb m.disk i) j = slot m.disk (dinode sb m.disk i') j' → i = i' ∧ j = j' := by
  refine ⟨fun hasserts => ?_, fun m hm => ?_⟩
  · obtain ⟨m, D, hrun, -⟩ := main_spec ⟨hroom, hasserts⟩
    exact ⟨m, hrun⟩
  have hfits : Fits fs := ⟨hroom, main_asserts hm⟩
  obtain ⟨m', D, hrun, h⟩ := main_spec hfits
  obtain rfl : m' = m := Except.ok.inj (hrun.symm.trans hm)
  have hlen := length_rootEntries fs
  refine ⟨fun s p hdisk htab f hf => ?_, direntAt_root h (by omega), direntAt_root h (by omega), h.map,
    fun i hi j => ?_, fun i hi i' hi' j j' => ?_⟩
  · obtain ⟨⟨i, hi⟩, rfl⟩ := List.get_of_mem hf
    exact kernel_reads h hfits hnames p hdisk htab hi
  · rw [h.inode i hi]
    exact h.laid.used i j
  · rw [h.inode i hi, h.inode i' hi']
    exact h.laid.inj i j i' j'

def twoFiles : List Input :=
  [⟨userDir ++ [underscore, 0x61], [[1, 2], [3]]⟩, ⟨[0x62], []⟩]

theorem twoFiles_room : Room twoFiles := ⟨by decide, by decide, by decide⟩

theorem twoFiles_asserts : Asserts twoFiles := by
  unfold Asserts
  decide

theorem twoFiles_names : Names twoFiles := ⟨by decide, by decide, by decide, by decide⟩

theorem kernel_agrees_two : ∃ m, main twoFiles = .ok m ∧ ∀ s : Sys, s.disk = m.disk → EmptyTable s →
    ∃ e t u, exec (namei sb ⟨0, by decide⟩ [slash, 0x61]) s = .ok (some e, t) ∧ exec (ilock sb e) t = .ok ((), u) ∧
      exec (readi sb e Sink.kernel 0 100) u = .ok ((3, [1, 2, 3]), u) := by
  obtain ⟨himage, hall⟩ := kernel_agrees twoFiles_room twoFiles_names
  obtain ⟨m, hrun⟩ := himage twoFiles_asserts
  obtain ⟨hread, -⟩ := hall m hrun
  refine ⟨m, hrun, fun s hdisk htab => ?_⟩
  obtain ⟨e, t, u, hname, hlock, -, -, hbytes⟩ := hread s ⟨0, by decide⟩ hdisk htab _ List.mem_cons_self
  exact ⟨e, t, u, hname, hlock, hbytes 0 100 (by decide)⟩

theorem hole_free (h : Written fs m D) {inum bn : Nat} (hi : inum < NINODES)
    (hlen : bn * BSIZE < (filesOf fs inum).length) : fileBlock m.disk (dinode sb m.disk inum) bn ≠ 0 := by
  rw [h.inode inum hi]
  exact (h.contents.block inum bn).mpr hlen

def fullRoot : List Input := (List.range 62).map fun i => ⟨[UInt8.ofNat (0x61 + i / 26), UInt8.ofNat (0x61 + i % 26)], []⟩

end Agree

end Xv6.Mkfs
