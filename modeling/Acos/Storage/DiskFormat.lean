import Acos.Lib.BitTable
import Acos.Storage.Log

/-!
# The format of the disk

The super block, the inodes and the map of the blocks in use, as they stand in the blocks of the
disk. A block is addressed by bytes here; the words in it have their lowest byte first.
-/

namespace Acos.Storage.Fs

open ByteMemory

abbrev BSIZE : Nat := 512

abbrev Data := Memory 9

abbrev NDIRECT : Nat := 12

abbrev NINDIRECT : Nat := BSIZE / 4

abbrev MAXFILE : Nat := NDIRECT + NINDIRECT

/-- Inodes in a block. -/
abbrev IPB : Nat := BSIZE / 64

/-- Bits of the map in a block. -/
abbrev BPB : Nat := BSIZE * 8

def Data.zero : Data := fun _ => 0

/-- The `k`th word of a block. -/
def Data.word (data : Data) (k : Nat) : Word := data.load32 (BitVec.ofNat 9 (4 * k))

def Data.setWord (data : Data) (k : Nat) (v : Word) : Data :=
  data.store32 (BitVec.ofNat 9 (4 * k)) v

@[simp]
theorem Data.word_zero (k : Nat) : Data.zero.word k = 0 := by
  simp only [word, zero, Memory.load32]
  decide

theorem Data.word_setWord (data : Data) {k l : Nat} (v : Word) (hk : k < 128) (hl : l < 128) :
    (data.setWord k v).word l = if l = k then v else data.word l := by
  by_cases hkl : l = k
  · subst hkl
    rw [if_pos rfl]
    exact Memory.load32_store32 data _ v (by decide)
  · have hk4 : (BitVec.ofNat 9 (4 * k)).toNat = 4 * k := by simp; omega
    have hl4 : (BitVec.ofNat 9 (4 * l)).toNat = 4 * l := by simp; omega
    rw [if_neg hkl, Data.setWord, Data.word, Memory.store32]
    refine Memory.load32_write_of_apart (by decide) ?_
    rcases Nat.lt_or_gt_of_ne hkl with hlt | hgt
    · refine (Apart.of_le ?_ ?_).symm <;> omega
    · refine Apart.of_le ?_ ?_ <;> omega

/-! ### The super block -/

structure SuperBlock where
  size : Word
  nblocks : Word
  ninodes : Word
  nlog : Word
  logstart : Word
  inodestart : Word
  bmapstart : Word
  deriving DecidableEq

def SuperBlock.decode (data : Data) : SuperBlock where
  size := data.word 0
  nblocks := data.word 1
  ninodes := data.word 2
  nlog := data.word 3
  logstart := data.word 4
  inodestart := data.word 5
  bmapstart := data.word 6

/-- The block that holds an inode. -/
def SuperBlock.IBLOCK (sb : SuperBlock) (inum : Nat) : Word :=
  BitVec.ofNat 32 (inum / IPB) + sb.inodestart

/-- The block of the map that holds the bit of a block. -/
def SuperBlock.BBLOCK (sb : SuperBlock) (b : Nat) : Word :=
  BitVec.ofNat 32 (b / BPB) + sb.bmapstart

/-- The first block behind the map. -/
def SuperBlock.dataStart (sb : SuperBlock) : Nat := sb.bmapstart.toNat + sb.size.toNat / BPB + 1

theorem SuperBlock.bmapstart_lt (sb : SuperBlock) : sb.bmapstart.toNat < sb.dataStart := by
  show _ < sb.bmapstart.toNat + sb.size.toNat / 4096 + 1
  omega

/-- The parts of the disk follow each other in the order of the format, and the loops over the
blocks and over the inodes can count them with an `int`. -/
structure SuperBlock.Valid (sb : SuperBlock) : Prop where
  super : 1 < sb.inodestart.toNat
  inodes : sb.inodestart.toNat + sb.ninodes.toNat / IPB < sb.bmapstart.toNat
  map : sb.dataStart ≤ sb.size.toNat
  blocks : sb.size.toNat + BPB ≤ 2 ^ 31
  inums : sb.ninodes.toNat < 2 ^ 31

namespace SuperBlock.Valid

variable {sb : SuperBlock} (h : sb.Valid)
include h

theorem inodes_lt : sb.inodestart.toNat + sb.ninodes.toNat / 8 < sb.bmapstart.toNat := h.inodes

theorem map_le : sb.bmapstart.toNat + sb.size.toNat / 4096 + 1 ≤ sb.size.toNat := h.map

theorem toNat_IBLOCK {i : Nat} (hi : i < sb.ninodes.toNat) :
    (sb.IBLOCK i).toNat = i / 8 + sb.inodestart.toNat := by
  have hinodes := h.inodes_lt
  have hbmap := sb.bmapstart.isLt
  show (BitVec.ofNat 32 (i / 8) + sb.inodestart).toNat = _
  rw [BitVec.toNat_add, BitVec.toNat_ofNat]
  omega

theorem toNat_BBLOCK {b : Nat} (hb : b < sb.size.toNat) :
    (sb.BBLOCK b).toNat = b / 4096 + sb.bmapstart.toNat := by
  have hmap := h.map_le
  have hsize := sb.size.isLt
  show (BitVec.ofNat 32 (b / 4096) + sb.bmapstart).toNat = _
  rw [BitVec.toNat_add, BitVec.toNat_ofNat]
  omega

theorem IBLOCK_lt {i : Nat} (hi : i < sb.ninodes.toNat) :
    (sb.IBLOCK i).toNat < sb.bmapstart.toNat := by
  have hinodes := h.inodes_lt
  rw [h.toNat_IBLOCK hi]
  omega

theorem one_lt_IBLOCK {i : Nat} (hi : i < sb.ninodes.toNat) : 1 < (sb.IBLOCK i).toNat := by
  have hsuper := h.super
  rw [h.toNat_IBLOCK hi]
  omega

theorem le_BBLOCK {b : Nat} (hb : b < sb.size.toNat) :
    sb.bmapstart.toNat ≤ (sb.BBLOCK b).toNat := by
  rw [h.toNat_BBLOCK hb]
  omega

theorem BBLOCK_lt {b : Nat} (hb : b < sb.size.toNat) : (sb.BBLOCK b).toNat < sb.dataStart := by
  show _ < sb.bmapstart.toNat + sb.size.toNat / 4096 + 1
  rw [h.toNat_BBLOCK hb]
  omega

theorem one_lt_bmapstart : 1 < sb.bmapstart.toNat := by
  have hsuper := h.super
  have hinodes := h.inodes_lt
  omega

theorem BBLOCK_inj {b c : Nat} (hb : b < sb.size.toNat) (hc : c < sb.size.toNat)
    (heq : sb.BBLOCK b = sb.BBLOCK c) : b / 4096 = c / 4096 := by
  have hnat := congrArg BitVec.toNat heq
  rw [h.toNat_BBLOCK hb, h.toNat_BBLOCK hc] at hnat
  omega

theorem IBLOCK_inj {i j : Nat} (hi : i < sb.ninodes.toNat) (hj : j < sb.ninodes.toNat)
    (heq : sb.IBLOCK i = sb.IBLOCK j) : i / 8 = j / 8 := by
  have hnat := congrArg BitVec.toNat heq
  rw [h.toNat_IBLOCK hi, h.toNat_IBLOCK hj] at hnat
  omega

end SuperBlock.Valid

/-! ### Inodes -/

/-- The fields of an inode that are on the disk. -/
structure Inode where
  type : BitVec 16
  major : BitVec 16
  minor : BitVec 16
  nlink : BitVec 16
  size : Word
  addrs : Fin (NDIRECT + 1) → Word
  deriving DecidableEq

namespace Inode

def blank : Inode := ⟨0, 0, 0, 0, 0, fun _ => 0⟩

def setAddr (ip : Inode) (k : Fin (NDIRECT + 1)) (addr : Word) : Inode :=
  { ip with addrs := Function.update ip.addrs k addr }

/-- The sixteen words of `struct dinode`. -/
def word (ip : Inode) : Nat → Word
  | 0 => ip.major ++ ip.type
  | 1 => ip.nlink ++ ip.minor
  | 2 => ip.size
  | k + 3 => if hk : k < NDIRECT + 1 then ip.addrs ⟨k, hk⟩ else 0

def ofWords (word : Nat → Word) : Inode where
  type := (word 0).extractLsb' 0 16
  major := (word 0).extractLsb' 16 16
  minor := (word 1).extractLsb' 0 16
  nlink := (word 1).extractLsb' 16 16
  size := word 2
  addrs k := word (k.val + 3)

/-- The inode at the position `slot` of a block. -/
def decode (data : Data) (slot : Nat) : Inode := ofWords fun k => data.word (16 * slot + k)

/-- All bytes of the position are written. -/
def encode (ip : Inode) (data : Data) (slot : Nat) : Data :=
  data.write (BitVec.ofNat 9 (64 * slot)) 64 fun i => byteOf (ip.word (i / 4)) (i % 4)

theorem extract_append (hi lo : BitVec 16) :
    (hi ++ lo : BitVec 32).extractLsb' 0 16 = lo ∧
      (hi ++ lo : BitVec 32).extractLsb' 16 16 = hi := by
  constructor <;>
    · apply BitVec.eq_of_getLsbD_eq
      intro i hi
      simp only [BitVec.getLsbD_extractLsb', BitVec.getLsbD_append]
      grind

@[simp]
theorem ofWords_word (ip : Inode) : ofWords ip.word = ip := by
  have haddrs : (ofWords ip.word).addrs = ip.addrs := by
    funext k
    exact dif_pos k.isLt
  obtain ⟨type, major, minor, nlink, size, addrs⟩ := ip
  simp only [ofWords, word, extract_append, mk.injEq, true_and]
  exact haddrs

theorem ofWords_congr {f g : Nat → Word} (h : ∀ k, k < 16 → f k = g k) : ofWords f = ofWords g := by
  have haddrs : (ofWords f).addrs = (ofWords g).addrs := by
    funext k
    exact h _ (Nat.add_lt_add_right k.isLt 3)
  simp only [ofWords, h 0 (by decide), h 1 (by decide), h 2 (by decide), mk.injEq, true_and]
  exact haddrs

theorem word_encode_self (ip : Inode) (data : Data) {slot k : Nat} (hk : k < 16) :
    Data.word (ip.encode data slot) (16 * slot + k) = ip.word k := by
  have haddr : BitVec.ofNat 9 (4 * (16 * slot + k))
      = BitVec.ofNat 9 (64 * slot) + BitVec.ofNat 9 (4 * k) := by
    rw [← BitVec.ofNat_add]
    congr 1
    omega
  rw [Data.word, encode, haddr, Memory.load32_write_add (by omega) (by decide),
    show (4 * k + 3) / 4 = k by omega, show (4 * k + 2) / 4 = k by omega,
    show (4 * k + 1) / 4 = k by omega, show 4 * k / 4 = k by omega,
    show (4 * k + 3) % 4 = 3 by omega, show (4 * k + 2) % 4 = 2 by omega,
    show (4 * k + 1) % 4 = 1 by omega, show 4 * k % 4 = 0 by omega]
  exact byteOf_append _

theorem word_encode_of_ne (ip : Inode) (data : Data) {slot other k : Nat} (hslot : slot < 8)
    (hother : other < 8) (hne : other ≠ slot) (hk : k < 16) :
    Data.word (ip.encode data slot) (16 * other + k) = data.word (16 * other + k) := by
  have hs : (BitVec.ofNat 9 (64 * slot)).toNat = 64 * slot := by simp; omega
  have ho : (BitVec.ofNat 9 (4 * (16 * other + k))).toNat = 4 * (16 * other + k) := by simp; omega
  refine Memory.load32_write_of_apart (by decide) ?_
  rcases Nat.lt_or_gt_of_ne hne with hlt | hgt
  · refine (Apart.of_le ?_ ?_).symm <;> omega
  · refine Apart.of_le ?_ ?_ <;> omega

/-- What is written into a block is read back, and the other inodes of the block stay. -/
theorem decode_encode (ip : Inode) (data : Data) {slot other : Nat} (hslot : slot < 8)
    (hother : other < 8) :
    decode (ip.encode data slot) other = if other = slot then ip else decode data other := by
  by_cases hne : other = slot
  · subst hne
    rw [if_pos rfl]
    exact (ofWords_congr fun k hk => word_encode_self ip data hk).trans (ofWords_word ip)
  · rw [if_neg hne]
    exact ofWords_congr fun k hk => word_encode_of_ne ip data hslot hother hne hk

end Inode

end Acos.Storage.Fs
