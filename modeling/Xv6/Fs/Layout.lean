import Mathlib.Data.Fintype.Basic
import Xv6.Disk

/-! The on-disk format of `kernel/fs.h`: superblock, inodes, free map, directory entries. -/

namespace Xv6.Fs
open Lib

instance : NeZero NINODE := ⟨by decide⟩
instance : NeZero NFILE := ⟨by decide⟩

def ROOTINO : Nat := 1
def NDIRECT : Nat := 12
def NINDIRECT : Nat := BSIZE / 4
def MAXFILE : Nat := NDIRECT + NINDIRECT
def IPB : Nat := BSIZE / 64
def BPB : Nat := BSIZE * 8
def DIRSIZ : Nat := 14
def DESIZE : Nat := 16

def T_DIR : Int16 := 1
def T_FILE : Int16 := 2
def T_DEVICE : Int16 := 3

/-- `struct superblock`, without the magic number that only `fsinit` reads. -/
structure Superblock where
  size : Nat
  nblocks : Nat
  ninodes : Nat
  nlog : Nat
  logstart : Nat
  inodestart : Nat
  bmapstart : Nat
  deriving DecidableEq, Repr

namespace Superblock
variable (sb : Superblock)

def IBLOCK (i : Nat) : Nat := i / IPB + sb.inodestart

def BBLOCK (b : Nat) : Nat := b / BPB + sb.bmapstart

def datastart : Nat := sb.size - sb.nblocks

/-- The areas of the disk follow one another. An inode number fits a `ushort`, and a block number a `uint`. -/
structure Ordered : Prop where
  inodes : ∀ i < sb.ninodes, sb.IBLOCK i < sb.bmapstart
  bitmap : ∀ b < sb.size, sb.BBLOCK b < sb.datastart
  root : ROOTINO < sb.ninodes
  inum : sb.ninodes ≤ 2 ^ 16
  blocks : sb.size < 2 ^ 31

end Superblock

structure Dinode where
  type : Int16
  major : Int16
  minor : Int16
  nlink : Int16
  size : UInt32
  addrs : Fin (NDIRECT + 1) → UInt32
  deriving DecidableEq

def Dinode.zero : Dinode := ⟨0, 0, 0, 0, 0, fun _ => 0⟩

structure Dirent where
  inum : UInt16
  name : Fin DIRSIZ → UInt8
  deriving DecidableEq

def Dirent.zero : Dirent := ⟨0, fun _ => 0⟩

/-! ### Fields of a block -/

section Block
variable (b : Block)

def short (o : Nat) : Int16 := (UInt16.ofNat (b.le o 2)).toInt16

def putShort (o : Nat) (v : Int16) : Block := b.put o 2 v.toUInt16.toNat

def uint (o : Nat) : UInt32 := UInt32.ofNat (b.le o 4)

def putUint (o : Nat) (v : UInt32) : Block := b.put o 4 v.toNat

def putWords (o : Nat) (f : Nat → UInt32) : Nat → Block
  | 0 => b
  | n + 1 => putUint (putWords o f n) (o + 4 * n) (f n)

def word (j : Nat) : UInt32 := uint b (4 * j)

def putWord (j : Nat) (v : UInt32) : Block := putUint b (4 * j) v

def Dinode.decode (o : Nat) : Dinode where
  type := short b o
  major := short b (o + 2)
  minor := short b (o + 4)
  nlink := short b (o + 6)
  size := uint b (o + 8)
  addrs i := uint b (o + 12 + 4 * i)

def Dinode.encode (d : Dinode) (o : Nat) : Block :=
  let b := putShort b o d.type
  let b := putShort b (o + 2) d.major
  let b := putShort b (o + 4) d.minor
  let b := putShort b (o + 6) d.nlink
  let b := putUint b (o + 8) d.size
  putWords b (o + 12) (fun i => d.addrs (Fin.ofNat _ i)) (NDIRECT + 1)

-- `m = 1 << (bi % 8)`
def mask (i : Nat) : UInt8 := UInt8.ofNat (2 ^ (i % 8))

/-- `(data[bi/8] & m) != 0` -/
def testBit (i : Nat) : Bool := b.get (i / 8) &&& mask i != 0

/-- `data[bi/8] |= m` -/
def setBit (i : Nat) : Block := b.write (i / 8) 1 fun _ => b.get (i / 8) ||| mask i

/-- `data[bi/8] &= ~m` -/
def clearBit (i : Nat) : Block := b.write (i / 8) 1 fun _ => b.get (i / 8) &&& ~~~mask i

end Block

section BlockLemmas
variable {b : Block} {o o' : Nat}

theorem short_put {v : Int16} (h : o + 2 ≤ BSIZE) : short (putShort b o v) o = v := by
  have hv : v.toUInt16.toNat < 256 ^ 2 := v.toUInt16.toNat_lt
  unfold short putShort
  rw [Bytes.le_put h hv, UInt16.ofNat_toNat]
  rfl

theorem uint_put {v : UInt32} (h : o + 4 ≤ BSIZE) : uint (putUint b o v) o = v := by
  have hv : v.toNat < 256 ^ 4 := v.toNat_lt
  unfold uint putUint
  rw [Bytes.le_put h hv, UInt32.ofNat_toNat]

theorem short_putShort_of_disjoint {v : Int16} (h : o' + 2 ≤ o ∨ o + 2 ≤ o') :
    short (putShort b o v) o' = short b o' := by
  unfold short putShort
  rw [Bytes.le_put_of_disjoint h]

theorem short_putUint_of_disjoint {v : UInt32} (h : o' + 2 ≤ o ∨ o + 4 ≤ o') :
    short (putUint b o v) o' = short b o' := by
  unfold short putUint
  rw [Bytes.le_put_of_disjoint h]

theorem uint_putUint_of_disjoint {v : UInt32} (h : o' + 4 ≤ o ∨ o + 4 ≤ o') :
    uint (putUint b o v) o' = uint b o' := by
  unfold uint putUint
  rw [Bytes.le_put_of_disjoint h]

theorem uint_putShort_of_disjoint {v : Int16} (h : o' + 4 ≤ o ∨ o + 2 ≤ o') :
    uint (putShort b o v) o' = uint b o' := by
  unfold uint putShort
  rw [Bytes.le_put_of_disjoint h]

theorem short_putWords_of_disjoint {f : Nat → UInt32} {n : Nat} (h : o' + 2 ≤ o ∨ o + 4 * n ≤ o') :
    short (putWords b o f n) o' = short b o' := by
  induction n with
  | zero => rfl
  | succ n ih => rw [putWords, short_putUint_of_disjoint (by omega), ih (by omega)]

theorem uint_putWords_of_disjoint {f : Nat → UInt32} {n : Nat} (h : o' + 4 ≤ o ∨ o + 4 * n ≤ o') :
    uint (putWords b o f n) o' = uint b o' := by
  induction n with
  | zero => rfl
  | succ n ih => rw [putWords, uint_putUint_of_disjoint (by omega), ih (by omega)]

theorem uint_putWords {f : Nat → UInt32} {n i : Nat} (hi : i < n) (hn : o + 4 * n ≤ BSIZE) :
    uint (putWords b o f n) (o + 4 * i) = f i := by
  induction n with
  | zero => omega
  | succ n ih =>
    rw [putWords]
    rcases Nat.lt_succ_iff_lt_or_eq.mp hi with hlt | rfl
    · rw [uint_putUint_of_disjoint (by omega), ih hlt (by omega)]
    · exact uint_put (by omega)

theorem word_putWord {j : Nat} {v : UInt32} (hj : j < NINDIRECT) : word (putWord b j v) j = v :=
  uint_put (by unfold NINDIRECT BSIZE at *; omega)

theorem word_putWord_ne {j j' : Nat} {v : UInt32} (h : j' ≠ j) : word (putWord b j v) j' = word b j' :=
  uint_putUint_of_disjoint (by omega)

@[simp] theorem word_zero (j : Nat) : word Bytes.zero j = 0 := by
  unfold word uint
  rw [Bytes.le_zero]
  rfl

theorem decode_encode {d : Dinode} (h : o + 64 ≤ BSIZE) : Dinode.decode (d.encode b o) o = d := by
  unfold Dinode.decode Dinode.encode
  obtain ⟨type, major, minor, nlink, size, addrs⟩ := d
  simp only [Dinode.mk.injEq]
  refine ⟨?_, ?_, ?_, ?_, ?_, ?_⟩
  · rw [short_putWords_of_disjoint (by omega), short_putUint_of_disjoint (by omega),
      short_putShort_of_disjoint (by omega), short_putShort_of_disjoint (by omega),
      short_putShort_of_disjoint (by omega), short_put (by omega)]
  · rw [short_putWords_of_disjoint (by omega), short_putUint_of_disjoint (by omega),
      short_putShort_of_disjoint (by omega), short_putShort_of_disjoint (by omega), short_put (by omega)]
  · rw [short_putWords_of_disjoint (by omega), short_putUint_of_disjoint (by omega),
      short_putShort_of_disjoint (by omega), short_put (by omega)]
  · rw [short_putWords_of_disjoint (by omega), short_putUint_of_disjoint (by omega), short_put (by omega)]
  · rw [uint_putWords_of_disjoint (by omega), uint_put (by omega)]
  · funext i
    have hi : i.val < NDIRECT + 1 := i.isLt
    rw [uint_putWords hi (by unfold NDIRECT; omega)]
    congr 1
    exact Fin.ext (Nat.mod_eq_of_lt hi)

theorem decode_encode_of_disjoint {d : Dinode} (h : o' + 64 ≤ o ∨ o + 64 ≤ o') :
    Dinode.decode (d.encode b o) o' = Dinode.decode b o' := by
  have hs : ∀ k, k + 2 ≤ 64 → short (d.encode b o) (o' + k) = short b (o' + k) := fun k hk => by
    unfold Dinode.encode
    rw [short_putWords_of_disjoint (by unfold NDIRECT; omega), short_putUint_of_disjoint (by omega),
      short_putShort_of_disjoint (by omega), short_putShort_of_disjoint (by omega),
      short_putShort_of_disjoint (by omega), short_putShort_of_disjoint (by omega)]
  have hu : ∀ k, k + 4 ≤ 64 → uint (d.encode b o) (o' + k) = uint b (o' + k) := fun k hk => by
    unfold Dinode.encode
    rw [uint_putWords_of_disjoint (by unfold NDIRECT; omega), uint_putUint_of_disjoint (by omega),
      uint_putShort_of_disjoint (by omega), uint_putShort_of_disjoint (by omega),
      uint_putShort_of_disjoint (by omega), uint_putShort_of_disjoint (by omega)]
  unfold Dinode.decode
  rw [Dinode.mk.injEq]
  refine ⟨hs 0 (by omega), hs 2 (by omega), hs 4 (by omega), hs 6 (by omega), hu 8 (by omega), ?_⟩
  funext i
  have hi : i.val < 13 := i.isLt
  have := hu (12 + 4 * i) (by omega)
  rw [show o' + 12 + 4 * i.val = o' + (12 + 4 * i.val) by omega]
  exact this

theorem mask_toBitVec (i : Nat) : (mask i).toBitVec = BitVec.twoPow 8 (i % 8) := by
  apply BitVec.eq_of_toNat_eq
  rw [BitVec.toNat_twoPow, mask, UInt8.toBitVec_ofNat', BitVec.toNat_ofNat]

theorem mask_getLsbD (i j : Nat) : (mask i).toBitVec.getLsbD (j % 8) = decide (i % 8 = j % 8) := by
  rw [mask_toBitVec, BitVec.getLsbD_twoPow]
  simp [Nat.mod_lt]

theorem and_mask (x : UInt8) (i : Nat) : (x &&& mask i != 0) = x.toBitVec.getLsbD (i % 8) := by
  have hne : BitVec.twoPow 8 (i % 8) ≠ 0#8 := fun h => by
    have := congrArg (BitVec.getLsbD · (i % 8)) h
    simp [Nat.mod_lt] at this
  have hiff : x &&& mask i = 0 ↔ x.toBitVec.getLsbD (i % 8) = false := by
    rw [← UInt8.toBitVec_inj, UInt8.toBitVec_and, mask_toBitVec, BitVec.and_twoPow]
    cases x.toBitVec.getLsbD (i % 8) <;> simp [hne]
  cases hx : x.toBitVec.getLsbD (i % 8) <;> simp [bne, hiff, hx]

theorem testBit_write {i j : Nat} {y : UInt8} (h : j / 8 < BSIZE) :
    testBit (b.write (i / 8) 1 fun _ => y) j = if j / 8 = i / 8 then y.toBitVec.getLsbD (j % 8) else testBit b j := by
  unfold testBit
  rw [Bytes.get_write _ _ _ _ _ h]
  by_cases hij : j / 8 = i / 8
  · rw [if_pos (by omega), if_pos hij, and_mask]
  · rw [if_neg (by omega), if_neg hij]

theorem testBit_setBit {i j : Nat} (h : j / 8 < BSIZE) :
    testBit (setBit b i) j = (decide (j = i) || testBit b j) := by
  unfold setBit
  rw [testBit_write h]
  by_cases hij : j / 8 = i / 8
  · rw [if_pos hij, UInt8.toBitVec_or, BitVec.getLsbD_or, mask_getLsbD, ← hij, Bool.or_comm]
    congr 1
    · exact decide_eq_decide.mpr (by omega)
    · exact (and_mask _ _).symm
  · rw [if_neg hij, decide_eq_false (by rintro rfl; exact hij rfl), Bool.false_or]

end BlockLemmas

theorem same_block {off i : Nat} (h : off % BSIZE + i < BSIZE) :
    (off + i) / BSIZE = off / BSIZE ∧ (off + i) % BSIZE = off % BSIZE + i := by
  unfold BSIZE at *
  omega

section Volume
variable (sb : Superblock)

def dinode (disk : Disk) (inum : Nat) : Dinode := Dinode.decode (disk (sb.IBLOCK inum)) (inum % IPB * 64)

def inodeBlock (disk : Disk) (inum : Nat) (d : Dinode) : Block := d.encode (disk (sb.IBLOCK inum)) (inum % IPB * 64)

/-- The free map bit of block `b`: set when the block is in use. -/
def inUse (disk : Disk) (b : Nat) : Bool := testBit (disk (sb.BBLOCK b)) (b % BPB)

variable {sb} {disk : Disk} {b n i j : Nat} {d : Dinode} {x : Block}

theorem dinode_update_of_ne (h : sb.IBLOCK i ≠ n) : dinode sb (Function.update disk n x) i = dinode sb disk i := by
  unfold dinode
  rw [Function.update_of_ne h]

theorem dinode_inodeBlock :
    dinode sb (Function.update disk (sb.IBLOCK i) (inodeBlock sb disk i d)) i = d := by
  have := Nat.mod_lt i (show 0 < IPB by decide)
  unfold dinode inodeBlock
  rw [Function.update_self, decode_encode (by unfold IPB BSIZE at *; omega)]

theorem dinode_inodeBlock_ne (h : j ≠ i) :
    dinode sb (Function.update disk (sb.IBLOCK i) (inodeBlock sb disk i d)) j = dinode sb disk j := by
  by_cases hb : sb.IBLOCK j = sb.IBLOCK i
  · have hslot : j % IPB ≠ i % IPB := fun hs => h (by
      unfold Superblock.IBLOCK at hb
      rw [← Nat.div_add_mod j IPB, ← Nat.div_add_mod i IPB, hs, Nat.add_right_cancel hb])
    unfold dinode inodeBlock
    rw [hb, Function.update_self, decode_encode_of_disjoint (by omega)]
  · exact dinode_update_of_ne hb

theorem inUse_update_of_ne (h : sb.BBLOCK b ≠ n) : inUse sb (Function.update disk n x) b = inUse sb disk b := by
  unfold inUse
  rw [Function.update_of_ne h]

private theorem bit_byte (b : Nat) : b % BPB / 8 < BSIZE := by
  have := Nat.mod_lt b (show 0 < BPB by decide)
  unfold BPB BSIZE at *
  omega

private theorem same_bit (h : sb.BBLOCK j = sb.BBLOCK i) : (j % BPB = i % BPB) = (j = i) := by
  unfold Superblock.BBLOCK at h
  refine propext ⟨fun hm => ?_, fun he => he ▸ rfl⟩
  rw [← Nat.div_add_mod j BPB, ← Nat.div_add_mod i BPB, hm, Nat.add_right_cancel h]

theorem inUse_setBit :
    inUse sb (Function.update disk (sb.BBLOCK i) (setBit (disk (sb.BBLOCK i)) (i % BPB))) j =
      (decide (j = i) || inUse sb disk j) := by
  by_cases hb : sb.BBLOCK j = sb.BBLOCK i
  · unfold inUse
    simp only [hb, Function.update_self, testBit_setBit (bit_byte j), same_bit hb]
  · rw [inUse_update_of_ne hb, decide_eq_false (by rintro rfl; exact hb rfl), Bool.false_or]

end Volume

end Xv6.Fs
