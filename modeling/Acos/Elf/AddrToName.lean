import Mathlib.Data.List.Pairwise
import Acos.Lib.ByteImage

/-!
# Names of functions

`AddrToName` looks for the first section of type `SHT_SYMTAB`, follows its link to the string table
and takes the first symbol of type `STT_FUNC` whose range contains the address. The file stays
mapped when a name is returned, and is unmapped otherwise.
-/

namespace Acos.Elf

open ByteImage

abbrev SHT_SYMTAB : Nat := 2

abbrev STT_FUNC : Nat := 2

/-- `sizeof(Elf64_Shdr)` -/
abbrev shdrSize : Nat := 64

/-- `sizeof(Elf64_Sym)` -/
abbrev symSize : Nat := 24

/-- `ELF64_ST_TYPE`, the low four bits. -/
def stType (info : Nat) : Nat := info % 16

/-! ### The code -/

/-- What is left of the mapping after `munmap`. -/
def FreeElfFile (_ : Image) : Option Image := none

/-- The loop over the section headers, `n` of them from the `i`-th on. -/
def findSymtab (image : Image) (shoff : Nat) : Nat → Nat → Option (Option Nat)
  | _, 0 => some none
  | i, n + 1 => do
      let type ← read image (shoff + shdrSize * i + 4) 4
      if type = SHT_SYMTAB then return some i
      findSymtab image shoff (i + 1) n

/-- The condition on the symbol at `entry`, whose parts are read only as far as they are needed. -/
def hits (image : Image) (entry : Nat) (addr : BitVec 64) : Option Bool := do
  let info ← read image (entry + 4) 1
  if stType info ≠ STT_FUNC then return false
  let value ← read image (entry + 8) 8
  if addr.toNat < value then return false
  let size ← read image (entry + 16) 8
  return addr.toNat < (value + size) % 2 ^ 64

/-- The loop over the symbols, `n` of them from the `i`-th on. -/
def findName (image : Image) (sym strings : Nat) (addr : BitVec 64) :
    Nat → Nat → Option (Option Nat)
  | _, 0 => some none
  | i, n + 1 => do
      if ← hits image (sym + symSize * i) addr then
        let name ← read image (sym + symSize * i) 4
        return some (strings + name)
      findName image sym strings addr (i + 1) n

/-- The offset in the file that the returned pointer leads to, and what is mapped afterwards. -/
def AddrToName (image : Image) (addr : BitVec 64) : Option (Option Nat × Option Image) := do
  let shoff ← read image 40 8
  let shnum ← read image 60 2
  let some i ← findSymtab image shoff 0 shnum | return (none, FreeElfFile image)
  let link ← read image (shoff + shdrSize * i + 40) 4
  let sym ← read image (shoff + shdrSize * i + 24) 8
  let strings ← read image (shoff + shdrSize * link + 24) 8
  let size ← read image (shoff + shdrSize * i + 32) 8
  let some name ← findName image sym strings addr 0 (size / symSize)
    | return (none, FreeElfFile image)
  return (some name, some image)

/-- The string that the caller finds, if there is one. -/
def nameFound (image : Image) (addr : BitVec 64) : Option (Option (List (BitVec 8))) := do
  let (pointer, file) ← AddrToName image addr
  let some offset := pointer | return none
  return some (← cString (← file) offset)

/-! ### The symbols of a file -/

structure Symbol where
  name : Option (List (BitVec 8))
  type : Nat
  value : Nat
  size : Nat
  deriving DecidableEq

def Symbol.Contains (s : Symbol) (a : Nat) : Prop := s.value ≤ a ∧ a < s.value + s.size

def shdr (image : Image) (i : Nat) : Nat := field image 40 8 + shdrSize * i

def shnum (image : Image) : Nat := field image 60 2

def symtab (image : Image) : Option Nat :=
  (List.range (shnum image)).find? fun i => field image (shdr image i + 4) 4 == SHT_SYMTAB

def shLink (image : Image) (i : Nat) : Nat := field image (shdr image i + 40) 4

def shOffset (image : Image) (i : Nat) : Nat := field image (shdr image i + 24) 8

def shSize (image : Image) (i : Nat) : Nat := field image (shdr image i + 32) 8

/-- The offset of the `j`-th symbol of the table in section `i`. -/
def entry (image : Image) (i j : Nat) : Nat := shOffset image i + symSize * j

/-- The offset of its name. -/
def nameOffset (image : Image) (i j : Nat) : Nat :=
  shOffset image (shLink image i) + field image (entry image i j) 4

def symbol (image : Image) (i j : Nat) : Symbol where
  name := cString image (nameOffset image i j)
  type := stType (field image (entry image i j + 4) 1)
  value := field image (entry image i j + 8) 8
  size := field image (entry image i j + 16) 8

def symbols (image : Image) : List Symbol :=
  match symtab image with
  | none => []
  | some i => (List.range (shSize image i / symSize)).map (symbol image i)

def functions (image : Image) : List Symbol :=
  (symbols image).filter fun s => s.type == STT_FUNC

structure WellFormed (image : Image) : Prop where
  header : 64 ≤ image.length
  sections : shdr image (shnum image) ≤ image.length
  link : ∀ i ∈ symtab image, shLink image i < shnum image
  table : ∀ i ∈ symtab image, shOffset image i + shSize image i ≤ image.length
  strings : ∀ i ∈ symtab image,
    shOffset image (shLink image i) + shSize image (shLink image i) ≤ image.length
  /-- The name of a function ends inside of the string table. -/
  names : ∀ i ∈ symtab image, ∀ j < shSize image i / symSize,
    (symbol image i j).type = STT_FUNC →
      0 ∈ ((image.drop (shOffset image (shLink image i))).take
        (shSize image (shLink image i))).drop (field image (entry image i j) 4)
  /-- The range of a function does not wrap around. One that ends exactly at `2 ^ 64` counts as
  wrapping: its end is 0 in the code. -/
  ranges : ∀ s ∈ functions image, s.value + s.size < 2 ^ 64

/-! ### The loops -/

section Loops

variable {image : Image} {addr : BitVec 64} {i j k n : Nat}

theorem read_shdr (hinside : shdr image k ≤ image.length) (hik : i < k) (offset n : Nat)
    (hfield : offset + n ≤ shdrSize) :
    read image (field image 40 8 + shdrSize * i + offset) n
      = some (field image (shdr image i + offset) n) := by
  apply read_of_le
  have hnext : shdrSize * (i + 1) ≤ shdrSize * k := Nat.mul_le_mul_left _ hik
  rw [Nat.mul_succ] at hnext
  unfold shdr at hinside
  omega

theorem findSymtab_eq (hinside : shdr image (i + n) ≤ image.length) :
    findSymtab image (field image 40 8) i n
      = some ((List.range' i n).find? fun i =>
        field image (shdr image i + 4) 4 == SHT_SYMTAB) := by
  induction n generalizing i with
  | zero => rfl
  | succ n ih =>
      have hrest := ih (i := i + 1) (by rwa [Nat.add_right_comm])
      rw [findSymtab, read_shdr hinside (by omega) 4 4 (by decide), List.range'_succ,
        List.find?_cons]
      by_cases htype : field image (shdr image i + 4) 4 = SHT_SYMTAB
      · rw [beq_iff_eq.mpr htype]
        exact if_pos htype
      · rw [beq_eq_false_iff_ne.mpr htype]
        exact (if_neg htype).trans hrest

theorem read_entry (hinside : entry image i k ≤ image.length) (hjk : j < k) (offset n : Nat)
    (hfield : offset + n ≤ symSize) :
    read image (entry image i j + offset) n
      = some (field image (entry image i j + offset) n) := by
  apply read_of_le
  have hnext : symSize * (j + 1) ≤ symSize * k := Nat.mul_le_mul_left _ hjk
  rw [Nat.mul_succ] at hnext
  unfold entry at hinside ⊢
  omega

/-- The condition as the processor evaluates it, with a sum of 64 bits. -/
def Symbol.Hit (s : Symbol) (addr : BitVec 64) : Prop :=
  s.type = STT_FUNC ∧ s.value ≤ addr.toNat ∧ addr.toNat < (s.value + s.size) % 2 ^ 64

instance (s : Symbol) (addr : BitVec 64) : Decidable (s.Hit addr) :=
  inferInstanceAs (Decidable (_ ∧ _ ∧ _))

theorem hits_eq (addr : BitVec 64) (hinside : entry image i k ≤ image.length) (hjk : j < k) :
    hits image (entry image i j) addr = some (decide ((symbol image i j).Hit addr)) := by
  rw [hits, read_entry hinside hjk 4 1 (by decide), read_entry hinside hjk 8 8 (by decide),
    read_entry hinside hjk 16 8 (by decide)]
  by_cases htype : stType (field image (entry image i j + 4) 1) = STT_FUNC
  · by_cases hvalue : addr.toNat < field image (entry image i j + 8) 8
    · simp [Symbol.Hit, symbol, htype, hvalue]
    · simp [Symbol.Hit, symbol, htype, hvalue, Nat.not_lt.mp hvalue]
  · simp [Symbol.Hit, symbol, htype]

theorem findName_eq (addr : BitVec 64) (hinside : entry image i (j + n) ≤ image.length)
    (strings : Nat) :
    findName image (shOffset image i) strings addr j n
      = some (((List.range' j n).find? fun j => (symbol image i j).Hit addr).map
        fun j => strings + field image (entry image i j) 4) := by
  induction n generalizing j with
  | zero => rfl
  | succ n ih =>
      have hrest := ih (j := j + 1) (by rwa [Nat.add_right_comm])
      have hname : read image (entry image i j) 4 = some (field image (entry image i j) 4) :=
        read_entry hinside (by omega) 0 4 (by decide)
      rw [findName]
      change (hits image (entry image i j) addr >>= fun hit => if hit = true then
        read image (entry image i j) 4 >>= fun name => pure (some (strings + name))
        else findName image (shOffset image i) strings addr (j + 1) n) = _
      rw [hits_eq addr hinside (by omega), hname, hrest, List.range'_succ, List.find?_cons]
      by_cases hhit : (symbol image i j).Hit addr
      · rw [decide_eq_true hhit]
        rfl
      · rw [decide_eq_false hhit]
        rfl

end Loops

/-! ### The search -/

section Search

variable {image : Image} {i : Nat}

theorem WellFormed.findSymtab (hwf : WellFormed image) :
    findSymtab image (field image 40 8) 0 (shnum image) = some (symtab image) := by
  rw [findSymtab_eq (by rw [Nat.zero_add]; exact hwf.sections), symtab, List.range_eq_range']

theorem addrToName_eq_none (addr : BitVec 64) (hwf : WellFormed image)
    (hsymtab : symtab image = none) : AddrToName image addr = some (none, none) := by
  have hheader := hwf.header
  have hfind := hwf.findSymtab
  rw [shnum, hsymtab] at hfind
  rw [AddrToName, read_of_le (by omega), read_of_le (by omega)]
  simp [hfind, FreeElfFile]

theorem symtab_lt (hsymtab : symtab image = some i) : i < shnum image :=
  List.mem_range.mp (List.mem_of_find?_eq_some hsymtab)

theorem addrToName_eq (addr : BitVec 64) (hwf : WellFormed image)
    (hsymtab : symtab image = some i) :
    AddrToName image addr = some (((List.range (shSize image i / symSize)).find? fun j =>
      (symbol image i j).Hit addr).elim (none, none)
        fun j => (some (nameOffset image i j), some image)) := by
  have hheader := hwf.header
  have hfind := hwf.findSymtab
  have hsection := symtab_lt hsymtab
  have htable : entry image i (0 + shSize image i / symSize) ≤ image.length := by
    have hinside := hwf.table i hsymtab
    have hcount := Nat.mul_div_le (shSize image i) symSize
    rw [Nat.zero_add, entry]
    omega
  have hlink : read image (field image 40 8 + shdrSize * i + 40) 4 = some (shLink image i) :=
    read_shdr hwf.sections hsection 40 4 (by decide)
  have hsym : read image (field image 40 8 + shdrSize * i + 24) 8 = some (shOffset image i) :=
    read_shdr hwf.sections hsection 24 8 (by decide)
  have hstrings : read image (field image 40 8 + shdrSize * shLink image i + 24) 8
      = some (shOffset image (shLink image i)) :=
    read_shdr hwf.sections (hwf.link i hsymtab) 24 8 (by decide)
  have hsize : read image (field image 40 8 + shdrSize * i + 32) 8 = some (shSize image i) :=
    read_shdr hwf.sections hsection 32 8 (by decide)
  have hname := findName_eq addr htable (shOffset image (shLink image i))
  rw [shnum, hsymtab] at hfind
  rw [← List.range_eq_range'] at hname
  rw [AddrToName, read_of_le (by omega), read_of_le (by omega)]
  simp only [Option.bind_eq_bind, Option.bind_some, hfind, hlink, hsym, hstrings, hsize, hname]
  cases (List.range (shSize image i / symSize)).find? fun j => (symbol image i j).Hit addr with
  | none => rfl
  | some j => rfl

theorem mem_functions (hsymtab : symtab image = some i) {s : Symbol} :
    s ∈ functions image
      ↔ ∃ j < shSize image i / symSize, symbol image i j = s ∧ s.type = STT_FUNC := by
  rw [functions, symbols, hsymtab]
  simp only [List.mem_filter, List.mem_map, List.mem_range, beq_iff_eq]
  constructor
  · rintro ⟨⟨j, hj, hs⟩, htype⟩
    exact ⟨j, hj, hs, htype⟩
  · rintro ⟨j, hj, hs, htype⟩
    exact ⟨⟨j, hj, hs⟩, htype⟩

theorem hit_iff (hwf : WellFormed image) {s : Symbol} (hs : s ∈ functions image)
    (addr : BitVec 64) : s.Hit addr ↔ s.Contains addr.toNat := by
  have htype : s.type = STT_FUNC := by
    rw [functions, List.mem_filter, beq_iff_eq] at hs
    exact hs.2
  rw [Symbol.Hit, Nat.mod_eq_of_lt (hwf.ranges s hs), Symbol.Contains]
  exact and_iff_right htype

def DisjointFunctions (image : Image) : Prop :=
  (functions image).Pairwise fun s t => ∀ a, ¬(s.Contains a ∧ t.Contains a)

theorem DisjointFunctions.eq (hdisjoint : DisjointFunctions image) {s t : Symbol}
    (hs : s ∈ functions image)
    (ht : t ∈ functions image) {a : Nat} (hsa : s.Contains a) (hta : t.Contains a) : t = s := by
  by_contra hne
  have hsymm : Std.Symm fun s t : Symbol => ∀ a, ¬(s.Contains a ∧ t.Contains a) :=
    ⟨fun s t h a hboth => h a hboth.symm⟩
  exact hdisjoint.forall ht hs hne a ⟨hta, hsa⟩

theorem name_eq (hwf : WellFormed image) (hsymtab : symtab image = some i) {j : Nat}
    (hj : j < shSize image i / symSize) (htype : (symbol image i j).type = STT_FUNC) :
    ∃ name, (symbol image i j).name = some name ∧ 0 ∉ name
      ∧ name ++ [0] <+: image.drop (nameOffset image i j) := by
  have hzero := hwf.names i hsymtab j hj htype
  rw [List.drop_take] at hzero
  have hmem := List.mem_of_mem_take hzero
  rw [List.drop_drop] at hmem
  exact cString_of_mem hmem

/-- What the caller gets for the function at the address: its name, in the file that is still
mapped. -/
structure Names (image : Image) (s : Symbol) (result : Option Nat × Option Image) : Prop where
  mapped : result.2 = some image
  found : ∃ offset name, result.1 = some offset ∧ s.name = some name ∧ 0 ∉ name
    ∧ name ++ [0] <+: image.drop offset ∧ cString image offset = some name

theorem addrToName_cases (addr : BitVec 64) (hwf : WellFormed image) :
    ∃ result, AddrToName image addr = some result
      ∧ ((∃ s ∈ functions image, s.Contains addr.toNat ∧ Names image s result)
        ∨ (∀ s ∈ functions image, ¬s.Contains addr.toNat) ∧ result = (none, none)) := by
  rcases hsymtab : symtab image with _ | i
  · have hnone : functions image = [] := by rw [functions, symbols, hsymtab]; rfl
    refine ⟨_, addrToName_eq_none addr hwf hsymtab, .inr ⟨?_, rfl⟩⟩
    rw [hnone]
    exact List.forall_mem_nil _
  · refine ⟨_, addrToName_eq addr hwf hsymtab, ?_⟩
    rcases hfind : (List.range (shSize image i / symSize)).find? fun j =>
        (symbol image i j).Hit addr with _ | j
    · -- no symbol meets the condition
      refine .inr ⟨?_, rfl⟩
      intro s hs hcontains
      obtain ⟨j, hj, rfl, -⟩ := (mem_functions hsymtab).mp hs
      have hmiss := List.find?_eq_none.mp hfind j (List.mem_range.mpr hj)
      exact hmiss (decide_eq_true ((hit_iff hwf hs addr).mpr hcontains))
    · have hj := List.mem_range.mp (List.mem_of_find?_eq_some hfind)
      have hfound := List.find?_some hfind
      have hhit : (symbol image i j).Hit addr := of_decide_eq_true hfound
      have hs := (mem_functions hsymtab).mpr ⟨j, hj, rfl, hhit.1⟩
      obtain ⟨name, hname, hzero, hprefix⟩ := name_eq hwf hsymtab hj hhit.1
      exact .inl ⟨_, hs, (hit_iff hwf hs addr).mp hhit, rfl, _, name, rfl, hname, hzero, hprefix,
        hname⟩

theorem Names.nameFound {addr : BitVec 64} {s : Symbol} {result : Option Nat × Option Image}
    (hresult : AddrToName image addr = some result) (hnames : Names image s result) :
    nameFound image addr = some s.name := by
  obtain ⟨hmapped, offset, name, hoffset, hname, -, -, hstring⟩ := hnames
  obtain ⟨pointer, file⟩ := result
  subst hmapped hoffset
  rw [Elf.nameFound, hresult, hname]
  simp [hstring]

theorem nameFound_eq_none {addr : BitVec 64} (hresult : AddrToName image addr = some (none, none)) :
    nameFound image addr = some none := by
  rw [nameFound, hresult]
  rfl

end Search

/-- `AddrToName` finds the function at the address if there is one, and NULL otherwise, and reads
only inside of the file. The order of the symbols and the symbols of other types do not matter. -/
theorem addrToName_correct (image : Image) (hwf : WellFormed image)
    (hdisjoint : DisjointFunctions image) (addr : BitVec 64) :
    (∃ result, AddrToName image addr = some result
      ∧ ((∃ s ∈ functions image, s.Contains addr.toNat
          ∧ (∀ t ∈ functions image, t.Contains addr.toNat → t = s) ∧ Names image s result)
        ∨ (∀ s ∈ functions image, ¬s.Contains addr.toNat) ∧ result = (none, none)))
    ∧ (symtab image = none → AddrToName image addr = some (none, none))
    ∧ ∀ image' others, WellFormed image' → (∀ s ∈ others, s.type ≠ STT_FUNC) →
      (symbols image').Perm (symbols image ++ others) →
      nameFound image' addr = nameFound image addr := by
  obtain ⟨result, hresult, hcases⟩ := addrToName_cases addr hwf
  refine ⟨⟨result, hresult, ?_⟩, addrToName_eq_none addr hwf, ?_⟩
  · refine hcases.imp_left ?_
    rintro ⟨s, hs, hcontains, hnames⟩
    exact ⟨s, hs, hcontains, fun t ht => hdisjoint.eq hs ht hcontains, hnames⟩
  · -- both searches find the same function, as no two contain the address
    intro image' others hwf' hothers hperm
    have hfunctions : (functions image').Perm (functions image) := by
      have hfilter := hperm.filter fun s => s.type == STT_FUNC
      have hnone : others.filter (fun s => s.type == STT_FUNC) = [] :=
        List.filter_eq_nil_iff.mpr fun s hs => by simpa using hothers s hs
      rwa [List.filter_append, hnone, List.append_nil] at hfilter
    obtain ⟨result', hresult', hcases'⟩ := addrToName_cases addr hwf'
    rcases hcases with ⟨s, hs, hcontains, hnames⟩ | ⟨hnone, rfl⟩
    · rcases hcases' with ⟨s', hs', hcontains', hnames'⟩ | ⟨hnone', -⟩
      · rw [hnames'.nameFound hresult', hnames.nameFound hresult,
          hdisjoint.eq hs (hfunctions.mem_iff.mp hs') hcontains hcontains']
      · exact absurd hcontains (hnone' s (hfunctions.mem_iff.mpr hs))
    · rcases hcases' with ⟨s', hs', hcontains', -⟩ | ⟨-, rfl⟩
      · exact absurd hcontains' (hnone s' (hfunctions.mem_iff.mp hs'))
      · rw [nameFound_eq_none hresult', nameFound_eq_none hresult]

/-- `n` bytes of a number. -/
def bytesOf (n v : Nat) : List (BitVec 8) := (List.range n).map fun i => .ofNat 8 (v / 256 ^ i)

def symBytes (name info value size : Nat) : List (BitVec 8) :=
  bytesOf 4 name ++ bytesOf 1 info ++ bytesOf 3 0 ++ bytesOf 8 value ++ bytesOf 8 size

def shdrBytes (type offset size link : Nat) : List (BitVec 8) :=
  bytesOf 4 0 ++ bytesOf 4 type ++ bytesOf 16 0 ++ bytesOf 8 offset ++ bytesOf 8 size
    ++ bytesOf 4 link ++ bytesOf 20 0

/-- A file with two sections, `symbols` and the strings `f` and `g`. -/
def sampleImage (symbols : List (BitVec 8)) : Image :=
  bytesOf 40 0 ++ bytesOf 8 64 ++ bytesOf 12 0 ++ bytesOf 2 2 ++ bytesOf 2 0
    ++ shdrBytes SHT_SYMTAB 192 symbols.length 1 ++ shdrBytes 3 (192 + symbols.length) 4 0
    ++ symbols ++ [0x66, 0, 0x67, 0]

def twoFunctions : Image :=
  sampleImage (symBytes 0 0x12 0x1000 0x20 ++ symBytes 2 0x12 0x1020 0x10)

/-- The same in another order, with a variable between them. -/
def twoFunctions' : Image :=
  sampleImage (symBytes 2 0x12 0x1020 0x10 ++ symBytes 2 0x11 0x1000 0x100
    ++ symBytes 0 0x12 0x1000 0x20)

theorem DisjointFunctions.of_le {image : Image} (hordered : (functions image).Pairwise fun s t =>
    s.value + s.size ≤ t.value ∨ t.value + t.size ≤ s.value) : DisjointFunctions image := by
  refine hordered.imp ?_
  rintro s t hst a ⟨⟨hs, hs'⟩, ht, ht'⟩
  omega

theorem addrToName_correct_two :
    nameFound twoFunctions 0x1020 = some (some [0x67])
      ∧ nameFound twoFunctions' 0x1020 = nameFound twoFunctions 0x1020 := by
  have hwf : WellFormed twoFunctions :=
    ⟨by decide +kernel, by decide +kernel, by decide +kernel, by decide +kernel,
      by decide +kernel, by decide +kernel, by decide +kernel⟩
  have hwf' : WellFormed twoFunctions' :=
    ⟨by decide +kernel, by decide +kernel, by decide +kernel, by decide +kernel,
      by decide +kernel, by decide +kernel, by decide +kernel⟩
  have hdisjoint : DisjointFunctions twoFunctions := .of_le (by decide +kernel)
  have hperm : (symbols twoFunctions').Perm
      (symbols twoFunctions ++ [⟨some [0x67], 1, 0x1000, 0x100⟩]) := by decide +kernel
  refine ⟨by decide +kernel, ?_⟩
  exact (addrToName_correct twoFunctions hwf hdisjoint 0x1020).2.2 twoFunctions' _ hwf'
    (by decide) hperm

end Acos.Elf
