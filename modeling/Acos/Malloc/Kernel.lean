import Acos.Lib.VirtualMemory
import Acos.Malloc.Model

/-!
# The allocator over a kernel

Each function of the allocator is run over a kernel that keeps the contracts of its calls. A block
owns the pages of its mapping: allocating it adds them to the mapped pages, freeing it takes them
away, and in both cases the memory of all other pages stays as it was.
-/

namespace Acos.Malloc

open Program ByteMemory VirtualMemory

def pageSize : Nat := 4096

/-- What the kernel promises for the calls of the allocator that do not fail. -/
def handles : (c : Call) → Kernel 64 → Reply c → Kernel 64 → Prop
  | .mmap _ length prot flags _ _, k, reply, k' =>
      prot = protRead ||| protWrite ∧ flags = mapPrivate ||| mapAnonymous ∧
        Maps pageSize k reply length.toNat k'
  | .munmap addr length, k, reply, k' => reply = (0 : Word) ∧ Unmaps pageSize k addr length.toNat k'
  | .mremap oldAddr oldSize newSize flags _, k, reply, k' =>
      flags = mremapMaymove ∧ Remaps pageSize k oldAddr oldSize.toNat reply newSize.toNat k'
  | .exit _, _, _, _ => False
  | .load addr, k, reply, k' => Mapped pageSize k addr 8 ∧ reply = k.memory.load64 addr ∧ k' = k
  | .store addr value, k, _, k' =>
      Mapped pageSize k addr 8 ∧ k' = { k with memory := k.memory.store64 addr value }

/-- A block as the client knows it. -/
structure Block where
  pointer : Word
  size : Word

namespace Block

/-- The address of the header, which is that of the mapping. -/
def base (b : Block) : Word := b.pointer - header

def mapping (b : Block) : Set Nat := pagesOf pageSize b.base (b.size.toNat + 8)

/-- The byte belongs to the client. -/
def Has (b : Block) (x : Word) : Prop := Within b.pointer b.size.toNat x

/-- The block stands behind its header at the start of a mapping. -/
structure Placed (b : Block) : Prop where
  aligned : Aligned pageSize b.base
  fits : b.base.toNat + (b.size.toNat + 8) ≤ 2 ^ 64
  small : b.size.toNat + 8 < 2 ^ 64

/-- The header holds the length of the mapping. -/
def Headed (b : Block) (k : Kernel 64) : Prop := k.memory.load64 b.base = b.size + header

theorem pointer_eq (b : Block) : b.pointer = b.base + BitVec.ofNat 64 8 :=
  (BitVec.sub_add_cancel _ _).symm

theorem base_mk (adr size : Word) : base ⟨adr + header, size⟩ = adr := BitVec.add_sub_cancel _ _

variable {b : Block} {x : Word}

theorem pageOf_mem_mapping (hplaced : b.Placed)
    (hx : Within b.base (b.size.toNat + 8) x) : pageOf pageSize x ∈ b.mapping :=
  pageOf_mem_pagesOf (by decide) hplaced.fits hx

theorem within_of_has (hx : b.Has x) : Within b.base (b.size.toNat + 8) x := by
  unfold Has at hx
  rw [pointer_eq] at hx
  apply hx.of_add
  omega

theorem within_of_header (hx : Within b.base 8 x) : Within b.base (b.size.toNat + 8) x := by
  apply hx.mono
  omega

theorem not_header_of_has (hplaced : b.Placed) (hx : b.Has x) : ¬Within b.base 8 x := by
  intro hheader
  have hsmall := hplaced.small
  have hapart : Apart (b.base + BitVec.ofNat 64 0) 8 (b.base + BitVec.ofNat 64 8) b.size.toNat :=
    Apart.of_add (by omega) (by omega)
  rw [BitVec.add_zero, ← pointer_eq] at hapart
  exact hapart x hheader hx

/-- Memory that agrees on the pages of the block keeps its header. -/
theorem Headed.congr {k k' : Kernel 64} (hheaded : b.Headed k)
    (hframe : ∀ x, Within b.base 8 x → k'.memory x = k.memory x) : b.Headed k' := by
  unfold Headed at hheaded ⊢
  rw [← hheaded]
  exact Memory.load64_congr (by decide) hframe

end Block

/-! ### What the functions do -/

variable {b : Block} {k k' : Kernel 64} {size adr q : Word}

/-- The block is new: its pages come to those that are kept, and nothing changes in these. -/
structure Allocates (b : Block) (kept : Set Nat) (k k' : Kernel 64) : Prop where
  placed : b.Placed
  headed : b.Headed k'
  fresh : Disjoint b.mapping kept
  pages : k'.pages = kept ∪ b.mapping
  frame : ∀ x, pageOf pageSize x ∈ kept → k'.memory x = k.memory x

theorem ne_mapFailed_of_aligned (haligned : Aligned pageSize adr) : adr ≠ mapFailed := by
  rintro rfl
  exact absurd haligned (by decide)

theorem finishAllocation_runs (haligned : Aligned pageSize adr)
    (hruns : (finishAllocation size adr).Runs handles k q k') :
    q = adr + header ∧ k' = { k with memory := k.memory.store64 adr (size + header) } := by
  rw [finishAllocation, if_neg (ne_mapFailed_of_aligned haligned), Prog.runs_bind] at hruns
  obtain ⟨_, _, hstore, rfl, rfl⟩ := hruns
  exact ⟨rfl, (Prog.runs_call.mp hstore).2⟩

/-- A mapping of the right length with its length in the first word is a block. -/
theorem allocates_of_store {kept : Set Nat} {k₁ : Kernel 64} (hsmall : size.toNat + 8 < 2 ^ 64)
    (haligned : Aligned pageSize adr) (hfits : adr.toNat + (size + header).toNat ≤ 2 ^ 64)
    (hfresh : Disjoint (pagesOf pageSize adr (size + header).toNat) kept)
    (hpages : k₁.pages = kept ∪ pagesOf pageSize adr (size + header).toNat)
    (hframe : ∀ x, pageOf pageSize x ∈ kept → k₁.memory x = k.memory x)
    (hruns : (finishAllocation size adr).Runs handles k₁ q k') :
    Allocates ⟨q, size⟩ kept k k' := by
  obtain ⟨rfl, rfl⟩ := finishAllocation_runs haligned hruns
  have hbase := Block.base_mk adr size
  rw [toNat_add_header_of_lt hsmall] at hfits hfresh hpages
  have hplaced : Block.Placed ⟨adr + header, size⟩ := by
    constructor
    · rwa [hbase]
    · rwa [hbase]
    · exact hsmall
  have hmapping : Block.mapping ⟨adr + header, size⟩ = pagesOf pageSize adr (size.toNat + 8) := by
    rw [Block.mapping, hbase]
  refine ⟨hplaced, ?_, ?_, ?_, fun x hx => ?_⟩
  · rw [Block.Headed, hbase]
    exact Memory.load64_store64 _ _ _ (by decide)
  · rwa [hmapping]
  · rwa [hmapping]
  · rw [← hframe x hx]
    apply Memory.store64_of_not_within
    intro hwithin
    rw [← hbase] at hwithin
    have hin := Block.pageOf_mem_mapping hplaced (Block.within_of_header hwithin)
    rw [hmapping] at hin
    exact Set.disjoint_left.mp hfresh hin hx

theorem malloc_runs (hsmall : size.toNat + 8 < 2 ^ 64)
    (hruns : (malloc size).Runs handles k q k') : Allocates ⟨q, size⟩ k.pages k k' := by
  rw [malloc_eq, Prog.runs_bind] at hruns
  obtain ⟨adr, k₁, hmmap, hfinish⟩ := hruns
  obtain ⟨-, -, hmaps⟩ := Prog.runs_call.mp hmmap
  exact allocates_of_store hsmall hmaps.aligned hmaps.fits hmaps.fresh hmaps.pages hmaps.frame
    hfinish

theorem load_runs {value : Word} (hheaded : b.Headed k)
    (hruns : (load b.base).Runs handles k value k') : value = b.size + header ∧ k = k' := by
  obtain ⟨-, hvalue, hk⟩ := Prog.runs_call.mp hruns
  exact ⟨hvalue.trans hheaded, hk.symm⟩

theorem free_runs (hplaced : b.Placed) (hheaded : b.Headed k) (hb : b.pointer ≠ null)
    (hruns : (free b.pointer).Runs handles k () k') :
    k'.pages = k.pages \ b.mapping ∧
      ∀ x, pageOf pageSize x ∈ k.pages \ b.mapping → k'.memory x = k.memory x := by
  rw [free, if_neg hb, Prog.runs_bind] at hruns
  obtain ⟨oldSize, _, hload, hruns⟩ := hruns
  obtain ⟨rfl, rfl⟩ := load_runs hheaded hload
  rw [Prog.runs_bind] at hruns
  obtain ⟨status, k₁, hmunmap, hruns⟩ := hruns
  rw [munmap, Prog.runs_bind] at hmunmap
  obtain ⟨rax, _, hcall, rfl, rfl⟩ := hmunmap
  obtain ⟨rfl, hunmaps⟩ := Prog.runs_call.mp hcall
  have hk : k' = _ := hruns.2
  rw [toNat_add_header_of_lt hplaced.small] at hunmaps
  rw [hk]
  exact ⟨hunmaps.pages, hunmaps.frame⟩

/-- The resized block takes the place of the old one, with the bytes the two have in common. -/
theorem realloc_runs (hplaced : b.Placed) (hheaded : b.Headed k) (hb : b.pointer ≠ null)
    (hsize : size ≠ 0) (hsmall : size.toNat + 8 < 2 ^ 64)
    (hruns : (realloc b.pointer size).Runs handles k q k') :
    Allocates ⟨q, size⟩ (k.pages \ b.mapping) k k' ∧
      ∀ i < min b.size.toNat size.toNat,
        k'.memory (q + BitVec.ofNat 64 i) = k.memory (b.pointer + BitVec.ofNat 64 i) := by
  rw [realloc_eq hb hsize, Prog.runs_bind] at hruns
  obtain ⟨adr, k₁, hremap, hfinish⟩ := hruns
  rw [Prog.runs_bind] at hremap
  obtain ⟨oldSize, _, hload, hremap⟩ := hremap
  obtain ⟨rfl, rfl⟩ := load_runs hheaded hload
  obtain ⟨-, hremaps⟩ := Prog.runs_call.mp hremap
  rw [toNat_add_header_of_lt hplaced.small] at hremaps
  have hallocates : Allocates ⟨q, size⟩ (k.pages \ b.mapping) k k' :=
    allocates_of_store hsmall hremaps.aligned hremaps.fits hremaps.disjoint hremaps.pages
      hremaps.frame hfinish
  refine ⟨hallocates, fun i hi => ?_⟩
  obtain ⟨rfl, rfl⟩ := finishAllocation_runs hremaps.aligned hfinish
  have hsum (a : Word) :
      a + BitVec.ofNat 64 8 + BitVec.ofNat 64 i = a + BitVec.ofNat 64 (8 + i) := by
    rw [BitVec.add_assoc, ← BitVec.ofNat_add]
  have hoff : ¬Within adr 8 (adr + BitVec.ofNat 64 (8 + i)) := by
    have hbound := b.size.isLt
    rw [Within, offset_add_ofNat _ (by omega)]
    omega
  calc (k₁.memory.store64 adr (size + header)) (adr + header + BitVec.ofNat 64 i)
      = k₁.memory (adr + BitVec.ofNat 64 (8 + i)) := by
        rw [show header = BitVec.ofNat 64 8 from rfl, hsum, Memory.store64_of_not_within hoff]
    _ = k.memory (b.base + BitVec.ofNat 64 (8 + i)) := by
        apply hremaps.kept
        rw [toNat_add_header_of_lt hsmall]
        omega
    _ = k.memory (b.pointer + BitVec.ofNat 64 i) := by rw [b.pointer_eq, hsum]

/-! ### That they do it -/

/-- The header fits into a mapping that was asked for. -/
theorem mapped_header {n : Nat} (hfits : adr.toNat + n ≤ 2 ^ 64) (hn : 8 ≤ n)
    (hpages : pagesOf pageSize adr n ⊆ k.pages) : Mapped pageSize k adr 8 := fun _ hx =>
  hpages (pageOf_mem_pagesOf (by decide) hfits (hx.mono hn))

theorem mapped_new_header {kept : Set Nat} (hsmall : size.toNat + 8 < 2 ^ 64)
    (hfits : adr.toNat + (size + header).toNat ≤ 2 ^ 64)
    (hpages : k.pages = kept ∪ pagesOf pageSize adr (size + header).toNat) :
    Mapped pageSize k adr 8 := by
  apply mapped_header hfits
  · rw [toNat_add_header_of_lt hsmall]
    omega
  · rw [hpages]
    exact Set.subset_union_right

theorem runs_finishAllocation (haligned : Aligned pageSize adr)
    (hmapped : Mapped pageSize k adr 8) :
    (finishAllocation size adr).Runs handles k (adr + header)
      ⟨k.pages, k.memory.store64 adr (size + header)⟩ := by
  rw [finishAllocation, if_neg (ne_mapFailed_of_aligned haligned), Prog.runs_bind]
  exact ⟨(), _, Prog.runs_call.mpr ⟨hmapped, rfl⟩, rfl, rfl⟩

theorem runs_malloc {k₁ : Kernel 64} (hsmall : size.toNat + 8 < 2 ^ 64)
    (hmaps : Maps pageSize k adr (size + header).toNat k₁) :
    (malloc size).Runs handles k (adr + header)
      ⟨k₁.pages, k₁.memory.store64 adr (size + header)⟩ := by
  have hmapped := mapped_new_header hsmall hmaps.fits hmaps.pages
  rw [malloc_eq, Prog.runs_bind]
  exact ⟨adr, k₁, Prog.runs_call.mpr ⟨rfl, rfl, hmaps⟩, runs_finishAllocation hmaps.aligned hmapped⟩

theorem Block.Placed.mapped (hplaced : b.Placed) (hmapping : b.mapping ⊆ k.pages) :
    Mapped pageSize k b.base 8 :=
  mapped_header hplaced.fits (Nat.le_add_left _ _) hmapping

theorem runs_load (hplaced : b.Placed) (hheaded : b.Headed k) (hmapping : b.mapping ⊆ k.pages) :
    (load b.base).Runs handles k (b.size + header) k :=
  Prog.runs_call.mpr ⟨hplaced.mapped hmapping, hheaded.symm, rfl⟩

theorem runs_free (hplaced : b.Placed) (hheaded : b.Headed k) (hb : b.pointer ≠ null)
    (hmapping : b.mapping ⊆ k.pages) :
    (free b.pointer).Runs handles k () ⟨k.pages \ b.mapping, k.memory⟩ := by
  have hunmaps : Unmaps pageSize k b.base (b.size + header).toNat
      ⟨k.pages \ b.mapping, k.memory⟩ := by
    rw [toNat_add_header_of_lt hplaced.small]
    exact ⟨rfl, fun _ _ => rfl⟩
  rw [free, if_neg hb, Prog.runs_bind]
  refine ⟨_, k, runs_load hplaced hheaded hmapping, ?_⟩
  rw [Prog.runs_bind]
  refine ⟨0, ⟨k.pages \ b.mapping, k.memory⟩, ?_, rfl, rfl⟩
  rw [munmap, Prog.runs_bind]
  exact ⟨(0 : Word), _, Prog.runs_call.mpr ⟨rfl, hunmaps⟩, rfl, rfl⟩

theorem runs_realloc {k₁ : Kernel 64} (hplaced : b.Placed) (hheaded : b.Headed k)
    (hb : b.pointer ≠ null) (hsize : size ≠ 0) (hsmall : size.toNat + 8 < 2 ^ 64)
    (hremaps : Remaps pageSize k b.base (b.size.toNat + 8) adr (size + header).toNat k₁) :
    (realloc b.pointer size).Runs handles k (adr + header)
      ⟨k₁.pages, k₁.memory.store64 adr (size + header)⟩ := by
  have hmapped := mapped_new_header hsmall hremaps.fits hremaps.pages
  rw [← toNat_add_header_of_lt hplaced.small] at hremaps
  rw [realloc_eq hb hsize, Prog.runs_bind]
  refine ⟨adr, k₁, ?_, runs_finishAllocation hremaps.aligned hmapped⟩
  rw [Prog.runs_bind]
  refine ⟨_, k, runs_load hplaced hheaded ?_, Prog.runs_call.mpr ⟨rfl, hremaps⟩⟩
  rw [Block.mapping, ← toNat_add_header_of_lt hplaced.small]
  exact hremaps.mapped

end Acos.Malloc
