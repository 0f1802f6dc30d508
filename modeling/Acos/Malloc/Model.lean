import Acos.Lib.Program
import Mathlib.Algebra.Ring.Nat

/-!
# An allocator on `mmap`

A block is a mapping of its own. The first word of the mapping holds its length, and the pointer
handed out is the address behind this word. The stubs for the system calls return what the kernel
leaves in `rax`, which is an address or a negated error number.
-/

namespace Acos.Malloc

open Program

abbrev Word := BitVec 64

/-- The system calls with their arguments, and the accesses to memory through a pointer. -/
inductive Call where
  | mmap (addr length : Word) (prot flags fd : BitVec 32) (offset : Word)
  | munmap (addr length : Word)
  | mremap (oldAddr oldSize newSize : Word) (flags : BitVec 32) (newAddr : Word)
  | exit (status : BitVec 32)
  | load (addr : Word)
  | store (addr value : Word)
  deriving DecidableEq

abbrev Reply : Call → Type
  | .mmap _ _ _ _ _ _ | .munmap _ _ | .mremap _ _ _ _ _ | .load _ => Word
  | .exit _ => Empty
  | .store _ _ => Unit

def null : Word := 0

def mapFailed : Word := -1

/-- `sizeof(size_t)`. -/
def header : Word := 8

def protRead : BitVec 32 := 1

def protWrite : BitVec 32 := 2

def mapPrivate : BitVec 32 := 2

def mapAnonymous : BitVec 32 := 0x20

def mremapMaymove : BitVec 32 := 1

/-! ### The stubs and the accesses -/

def mmap (addr length : Word) (prot flags fd : BitVec 32) (offset : Word) : Prog Reply Word :=
  call (Call.mmap addr length prot flags fd offset)

/-- The stub is declared to return an `int`. -/
def munmap (addr length : Word) : Prog Reply (BitVec 32) := do
  let rax ← call (Call.munmap addr length)
  return BitVec.setWidth 32 (rax : Word)

def mremap (oldAddr oldSize newSize : Word) (flags : BitVec 32) (newAddr : Word) :
    Prog Reply Word :=
  call (Call.mremap oldAddr oldSize newSize flags newAddr)

def exit {α : Type} (status : BitVec 32) : Prog Reply α := .perform (Call.exit status) Empty.elim

def load (addr : Word) : Prog Reply Word := call (Call.load addr)

def store (addr value : Word) : Prog Reply Unit := call (Call.store addr value)

/-! ### The allocator -/

def malloc (size : Word) : Prog Reply Word := do
  let adr ← mmap null (size + header) (protRead ||| protWrite) (mapPrivate ||| mapAnonymous) (-1) 0
  if adr = mapFailed then
    return null
  else
    store adr (size + header)
    return adr + header

def free (ptr : Word) : Prog Reply Unit := do
  if ptr = null then
    return
  else
    let size ← load (ptr - header)
    if (← munmap (ptr - header) size) = -1 then
      exit 1

def realloc (ptr size : Word) : Prog Reply Word := do
  if ptr = null then
    malloc size
  else if size = 0 then
    free ptr
    return null
  else
    let oldSize ← load (ptr - header)
    let newAdr ← mremap (ptr - header) oldSize (size + header) mremapMaymove null
    if newAdr = mapFailed then
      return null
    else
      store newAdr (size + header)
      return newAdr + header

theorem toNat_add_header (size : Word) : (size + header).toNat = (size.toNat + 8) % 2 ^ 64 := by
  rw [BitVec.toNat_add]
  rfl

theorem toNat_add_header_of_lt {size : Word} (hsize : size.toNat + 8 < 2 ^ 64) :
    (size + header).toNat = size.toNat + 8 := by
  rw [toNat_add_header, Nat.mod_eq_of_lt hsize]

/-- The end of `malloc` and of `realloc`, behind the call that allocates. -/
def finishAllocation (size adr : Word) : Prog Reply Word := do
  if adr = mapFailed then
    return null
  else
    store adr (size + header)
    return adr + header

theorem malloc_eq (size : Word) :
    malloc size = mmap null (size + header) (protRead ||| protWrite)
      (mapPrivate ||| mapAnonymous) (-1) 0 >>= finishAllocation size := rfl

theorem realloc_eq {p size : Word} (hp : p ≠ null) (hsize : size ≠ 0) :
    realloc p size = (load (p - header) >>= fun oldSize =>
      mremap (p - header) oldSize (size + header) mremapMaymove null) >>=
        finishAllocation size := by
  rw [realloc, if_neg hp, if_neg hsize, bind_assoc]
  rfl

end Acos.Malloc
