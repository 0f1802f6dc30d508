import Acos.Lib.Outcome
import Acos.Storage.DiskFormat

/-!
# Blocks and inodes

The layers of the file system that hand out blocks and keep the contents of files in them. The
functions work on the blocks as `bread` returns them; what the buffer cache and the log do with the
blocks is not repeated here. There is one disk, so that no function is given a device. An operation
holds the lock of its inode and is one step of the kernel.
-/

namespace Acos.Storage.Fs

open ByteMemory

abbrev Byte := BitVec 8

/-- The blocks, and `sb` of the kernel. -/
structure Disk where
  sb : SuperBlock
  block : Word → Data

inductive Panic where
  | outOfBlocks
  | freeingFreeBlock
  | outOfRange
  | ialloc
  | noType
  | iget
  | ilock
  deriving DecidableEq

abbrev Op := EStateM Panic Disk

namespace Disk

/-- `log_write` of a buffer. -/
def put (d : Disk) (b : Word) (data : Data) : Disk :=
  { d with block := Function.update d.block b data }

/-- The bit of a block in the map. -/
def used (d : Disk) (b : Nat) : Bool := BitTable.test (d.block (d.sb.BBLOCK b)) (b % BPB)

def mark (d : Disk) (b : Nat) : Disk :=
  d.put (d.sb.BBLOCK b) (BitTable.mark (d.block (d.sb.BBLOCK b)) (b % BPB))

def unmark (d : Disk) (b : Nat) : Disk :=
  d.put (d.sb.BBLOCK b) (BitTable.clear (d.block (d.sb.BBLOCK b)) (b % BPB))

def dinode (d : Disk) (inum : Nat) : Inode := .decode (d.block (d.sb.IBLOCK inum)) (inum % IPB)

def setDinode (d : Disk) (inum : Nat) (ip : Inode) : Disk :=
  d.put (d.sb.IBLOCK inum) (ip.encode (d.block (d.sb.IBLOCK inum)) (inum % IPB))

/-- The inner loop of `balloc`: the first clear bit in the block of the map that begins with the bit
of `b`. -/
def clearBit (d : Disk) (b : Nat) : Option Nat :=
  (List.range (min BPB (d.sb.size.toNat - b))).find? fun bi =>
    !BitTable.test (d.block (d.sb.BBLOCK b)) bi

/-- The outer loop of `balloc`, over the blocks of the map. -/
def freeBlock (d : Disk) : Option Nat :=
  (List.range ((d.sb.size.toNat + BPB - 1) / BPB)).findSome? fun k =>
    (d.clearBit (k * BPB)).map (k * BPB + ·)

end Disk

def readsb : Op Unit := modify fun d => { d with sb := .decode (d.block 1) }

def bzero (bno : Word) : Op Unit := modify fun d => d.put bno .zero

def balloc : Op Word := do
  let d ← get
  match d.freeBlock with
  | none => throw .outOfBlocks
  | some b =>
      modify fun d => d.mark b
      bzero (BitVec.ofNat 32 b)
      return BitVec.ofNat 32 b

def bfree (b : Word) : Op Unit := do
  readsb
  let d ← get
  if d.used b.toNat then
    modify fun d => d.unmark b.toNat
  else
    throw .freeingFreeBlock

/-- The inode gets the type, all of its other fields are zero. -/
def ialloc (type : BitVec 16) : Op Nat := do
  let d ← get
  match (List.range' 1 (d.sb.ninodes.toNat - 1)).find? fun inum => (d.dinode inum).type = 0 with
  | none => throw .ialloc
  | some inum =>
      modify fun d => d.setDinode inum { Inode.blank with type := type }
      return inum

def iupdate (inum : Nat) (ip : Inode) : Op Unit := modify fun d => d.setDinode inum ip

/-- What `ilock` does if the copy of the inode in memory is not valid. -/
def iload (inum : Nat) : Op Inode := do
  let d ← get
  if (d.dinode inum).type = 0 then throw .noType
  return d.dinode inum

/-- In `bmap`: the inode with a block of addresses. -/
def loadTable (ip : Inode) : Op Inode := do
  if ip.addrs (Fin.last NDIRECT) = 0 then
    let addr ← balloc
    return ip.setAddr (Fin.last NDIRECT) addr
  else
    return ip

/-- In `bmap`: the `k`th entry of a block of addresses. -/
def loadEntry (table : Word) (k : Nat) : Op Word := do
  let d ← get
  if (d.block table).word k = 0 then
    let addr ← balloc
    modify fun d => d.put table ((d.block table).setWord k addr)
    return addr
  else
    return (d.block table).word k

/-- The address of the `bn`th block of a file. A block that is missing is allocated, and so is the
block of addresses. -/
def bmap (ip : Inode) (bn : Nat) : Op (Word × Inode) := do
  if hbn : bn < NDIRECT then
    let k : Fin (NDIRECT + 1) := ⟨bn, Nat.lt_succ_of_lt hbn⟩
    if ip.addrs k = 0 then
      let addr ← balloc
      return (addr, ip.setAddr k addr)
    else
      return (ip.addrs k, ip)
  else if bn - NDIRECT < NINDIRECT then
    let ip ← loadTable ip
    let addr ← loadEntry (ip.addrs (Fin.last NDIRECT)) (bn - NDIRECT)
    return (addr, ip)
  else
    throw .outOfRange

/-- The first loop of `itrunc`. -/
def freeDirect : List (Fin NDIRECT) → Inode → Op Inode
  | [], ip => return ip
  | k :: ks, ip => do
      if ip.addrs k.castSucc = 0 then
        freeDirect ks ip
      else
        bfree (ip.addrs k.castSucc)
        freeDirect ks (ip.setAddr k.castSucc 0)

/-- The second loop of `itrunc`. The addresses stay in the block. -/
def freeEntries (table : Word) : List (Fin NINDIRECT) → Op Unit
  | [] => return ()
  | j :: js => do
      let d ← get
      let addr := (d.block table).word j
      if addr = 0 then
        freeEntries table js
      else
        bfree addr
        freeEntries table js

/-- In `itrunc`: the blocks that are reached through the block of addresses, and this block. -/
def freeTable (ip : Inode) : Op Inode := do
  if ip.addrs (Fin.last NDIRECT) = 0 then
    return ip
  else
    freeEntries (ip.addrs (Fin.last NDIRECT)) (List.finRange NINDIRECT)
    bfree (ip.addrs (Fin.last NDIRECT))
    return ip.setAddr (Fin.last NDIRECT) 0

def itrunc (inum : Nat) (ip : Inode) : Op Inode := do
  let ip ← freeDirect (List.finRange NDIRECT) ip
  let ip ← freeTable ip
  let ip := { ip with size := 0 }
  iupdate inum ip
  return ip

/-- In `iput`: the file is truncated and its inode marked as free. -/
def ifree (inum : Nat) (ip : Inode) : Op Inode := do
  let ip ← itrunc inum ip
  iupdate inum { ip with type := 0 }
  return { ip with type := 0 }

/-- The loop of `readi`, with the number of bytes that are left. -/
def readBlocks : Nat → Inode → Nat → Nat → Op (List Byte × Inode)
  | 0, ip, _, _ => return ([], ip)
  | fuel + 1, ip, off, n => do
      if n = 0 then
        return ([], ip)
      else
        let (addr, ip) ← bmap ip (off / BSIZE)
        let m := min n (BSIZE - off % BSIZE)
        let d ← get
        let bytes := (List.range m).map fun k => d.block addr (BitVec.ofNat 9 (off % BSIZE + k))
        let (rest, ip) ← readBlocks fuel ip (off + m) (n - m)
        return (bytes ++ rest, ip)

/-- The bytes that are copied, or nothing if the result is `-1`. -/
def readi (ip : Inode) (off n : Word) : Op (Option (List Byte) × Inode) := do
  if off > ip.size ∨ off + n < off then
    return (none, ip)
  else
    let n := if off + n > ip.size then ip.size - off else n
    let (bytes, ip) ← readBlocks n.toNat ip off.toNat n.toNat
    return (some bytes, ip)

/-- The loop of `writei`, with the bytes that are left. -/
def writeBlocks : Nat → Inode → Nat → List Byte → Op Inode
  | 0, ip, _, _ => return ip
  | fuel + 1, ip, off, src => do
      if src = [] then
        return ip
      else
        let (addr, ip) ← bmap ip (off / BSIZE)
        let m := min src.length (BSIZE - off % BSIZE)
        modify fun d => d.put addr
          ((d.block addr).write (BitVec.ofNat 9 (off % BSIZE)) m fun k => src.getD k 0)
        writeBlocks fuel ip (off + m) (src.drop m)

/-- The inode is written only if the file has grown. -/
def writei (inum : Nat) (ip : Inode) (off : Word) (src : List Byte) :
    Op (Option Word × Inode) := do
  let n := BitVec.ofNat 32 src.length
  if off > ip.size ∨ off + n < off then
    return (none, ip)
  else if off + n > BitVec.ofNat 32 (MAXFILE * BSIZE) then
    return (none, ip)
  else
    let ip ← writeBlocks src.length ip off.toNat src
    if n > 0 ∧ off + n > ip.size then
      let ip := { ip with size := off + n }
      iupdate inum ip
      return (some n, ip)
    else
      return (some n, ip)

end Acos.Storage.Fs
