import Acos.Lib.Transition
import Acos.Malloc.Kernel
import Mathlib.Data.List.Pairwise

/-!
# Whole runs of the allocator

A client calls the allocator and writes to its blocks. The mapped pages are at every moment shared
out among the live blocks and those who had pages before the first call, and the header of each live
block holds the length of its mapping.
-/

namespace Acos.Malloc

open Program ByteMemory VirtualMemory Transition

/-- The blocks the client has got and not given back, besides the kernel. -/
structure State where
  kernel : Kernel 64
  live : List Block

/-- The calls with what they return, and the writes of the client. -/
inductive Operation where
  | malloc (size q : Word)
  | realloc (p size q : Word)
  | free (p : Word)
  | write (addr : Word) (value : BitVec 8)

/-- The client passes `NULL`, or a live pointer, which leaves it the rest of its blocks. -/
def Passes (live : List Block) (p : Word) (rest : List Block) : Prop :=
  p = null ∧ rest = live ∨ ∃ size, live.Perm (⟨p, size⟩ :: rest)

def step : Operation → State → State → Prop
  | .malloc size q, s, s' =>
      size.toNat + 8 < 2 ^ 63 ∧ (malloc size).Runs handles s.kernel q s'.kernel ∧
        s'.live = ⟨q, size⟩ :: s.live
  | .realloc p size q, s, s' =>
      size.toNat + 8 < 2 ^ 63 ∧ (realloc p size).Runs handles s.kernel q s'.kernel ∧
        ∃ rest, Passes s.live p rest ∧
          s'.live = if p ≠ null ∧ size = 0 then rest else ⟨q, size⟩ :: rest
  | .free p, s, s' =>
      (free p).Runs handles s.kernel () s'.kernel ∧ Passes s.live p s'.live
  | .write addr value, s, s' =>
      (∃ b ∈ s.live, b.Has addr) ∧
        s' = ⟨⟨s.kernel.pages, s.kernel.memory.write addr 1 fun _ => value⟩, s.live⟩

/-- The pages of `initial` are mapped before the first call. -/
def allocator (initial : Set Nat) : System State Operation where
  init s := s.kernel.pages = initial ∧ s.live = []
  step := step

/-! ### The invariant -/

structure Inv (initial : Set Nat) (k : Kernel 64) (live : List Block) : Prop where
  partition : Partition k.pages (live.map Block.mapping ++ [initial])
  placed : ∀ b ∈ live, b.Placed
  headed : ∀ b ∈ live, b.Headed k

section Invariant

variable {initial kept : Set Nat} {k k' : Kernel 64} {live live' rest : List Block} {b : Block}
  {x : Word}

theorem Block.Placed.pointer_ne_null (hplaced : b.Placed) : b.pointer ≠ null := by
  intro hnull
  have hbase : b.base = null - header := by rw [Block.base, hnull]
  have haligned := hplaced.aligned
  rw [hbase] at haligned
  exact absurd haligned (by decide)

namespace Inv

theorem mapping_subset (hinv : Inv initial k live) (hb : b ∈ live) : b.mapping ⊆ k.pages :=
  hinv.partition.subset (List.mem_append_left _ (List.mem_map_of_mem hb))

theorem pageOf_mem (hinv : Inv initial k live) (hb : b ∈ live)
    (hx : Within b.base (b.size.toNat + 8) x) : pageOf pageSize x ∈ k.pages :=
  hinv.mapping_subset hb (Block.pageOf_mem_mapping (hinv.placed b hb) hx)

theorem perm (hinv : Inv initial k live) (hperm : live.Perm live') : Inv initial k live' where
  partition := hinv.partition.perm ((hperm.map _).append_right _)
  placed b hb := hinv.placed b (hperm.mem_iff.mpr hb)
  headed b hb := hinv.headed b (hperm.mem_iff.mpr hb)

/-- Headers are kept by memory that agrees on them. -/
theorem frame (hinv : Inv initial k live) (hpages : k'.pages = k.pages)
    (hframe : ∀ b ∈ live, ∀ x, Within b.base 8 x → k'.memory x = k.memory x) :
    Inv initial k' live where
  partition := by
    rw [hpages]
    exact hinv.partition
  placed := hinv.placed
  headed b hb := (hinv.headed b hb).congr (hframe b hb)

/-- The block given back is gone with its pages. -/
theorem remove (hinv : Inv initial k (b :: live)) :
    Inv initial ⟨k.pages \ b.mapping, k.memory⟩ live where
  partition := hinv.partition.remove
  placed b' hb' := hinv.placed b' (List.mem_cons_of_mem b hb')
  headed b' hb' := hinv.headed b' (List.mem_cons_of_mem b hb')

theorem add (hinv : Inv initial ⟨kept, k.memory⟩ live) (hallocates : Allocates b kept k k') :
    Inv initial k' (b :: live) where
  partition := by
    rw [hallocates.pages]
    exact hinv.partition.add hallocates.fresh
  placed := List.forall_mem_cons.mpr ⟨hallocates.placed, hinv.placed⟩
  headed := by
    refine List.forall_mem_cons.mpr ⟨hallocates.headed, fun b' hb' => ?_⟩
    refine (hinv.headed b' hb').congr fun x hx => ?_
    exact hallocates.frame x (hinv.pageOf_mem hb' (Block.within_of_header hx))

theorem disjoint_mapping (hinv : Inv initial k live) :
    live.Pairwise fun b b' => Disjoint b.mapping b'.mapping :=
  List.pairwise_map.mp (List.pairwise_append.mp hinv.partition.apart).1

/-- A page has one owner. -/
theorem eq_of_mem_mapping {b' : Block} {page : Nat} (hinv : Inv initial k live) (hb : b ∈ live)
    (hb' : b' ∈ live) (hpage : page ∈ b.mapping) (hpage' : page ∈ b'.mapping) : b = b' := by
  by_contra hne
  have : Std.Symm fun b b' : Block => Disjoint b.mapping b'.mapping := ⟨fun _ _ h => h.symm⟩
  have hdisjoint := hinv.disjoint_mapping.forall hb hb' hne
  exact Set.disjoint_left.mp hdisjoint hpage hpage'

theorem write (hinv : Inv initial k live) (hb : b ∈ live) (hx : b.Has x) (value : BitVec 8) :
    Inv initial ⟨k.pages, k.memory.write x 1 fun _ => value⟩ live := by
  refine hinv.frame rfl fun b' hb' y hy => ?_
  dsimp only
  apply Memory.write_of_not_within
  intro hwithin
  have hzero : y - x = 0#64 := BitVec.eq_of_toNat_eq (Nat.lt_one_iff.mp hwithin)
  have hyx : y = x := by rw [← BitVec.sub_add_cancel y x, hzero, BitVec.zero_add]
  subst hyx
  -- The byte would belong to a header and to a block, and both lie in the pages of their owner.
  have hown := hinv.eq_of_mem_mapping hb hb'
    (Block.pageOf_mem_mapping (hinv.placed b hb) (Block.within_of_has hx))
    (Block.pageOf_mem_mapping (hinv.placed b' hb') (Block.within_of_header hy))
  subst hown
  exact Block.not_header_of_has (hinv.placed b hb) hx hy

end Inv

end Invariant

/-! ### Steps -/

/-- The pointer that an operation of the allocator is given. -/
def Operation.passed : Operation → Option Word
  | .malloc _ _ => some null
  | .realloc p _ _ => some p
  | .free p => some p
  | .write _ _ => none

/-- The bytes of the block that `realloc` resizes go along, and no operation of the allocator
touches another block. -/
structure Preserves (s : State) (operation : Operation) (s' : State) : Prop where
  resized : ∀ p size q, operation = .realloc p size q → ∀ old, ⟨p, old⟩ ∈ s.live →
    ∀ i < min old.toNat size.toNat,
      s'.kernel.memory (q + BitVec.ofNat 64 i) = s.kernel.memory (p + BitVec.ofNat 64 i)
  others : ∀ p, operation.passed = some p → ∀ b ∈ s.live, b.pointer ≠ p →
    b ∈ s'.live ∧ ∀ x, b.Has x → s'.kernel.memory x = s.kernel.memory x

section Steps

variable {initial : Set Nat} {s s' : State} {p size q : Word} {rest : List Block}

/-- What the client keeps when it passes a pointer: the pages and blocks that are not of the
pointer's block. -/
structure Keeps (initial : Set Nat) (s : State) (p : Word) (kept : Set Nat) (rest : List Block) :
    Prop where
  inv : Inv initial ⟨kept, s.kernel.memory⟩ rest
  mem : ∀ b ∈ s.live, b.pointer ≠ p → b ∈ rest

theorem Keeps.null (hinv : Inv initial s.kernel s.live) :
    Keeps initial s p s.kernel.pages s.live := ⟨hinv, fun _ hb _ => hb⟩

theorem Keeps.block {b : Block} (hinv : Inv initial s.kernel s.live)
    (hperm : s.live.Perm (b :: rest)) :
    Keeps initial s b.pointer (s.kernel.pages \ b.mapping) rest where
  inv := (hinv.perm hperm).remove
  mem b' hb' hne := by
    rcases List.mem_cons.mp (hperm.mem_iff.mp hb') with rfl | hrest
    · exact absurd rfl hne
    · exact hrest

/-- An operation of the allocator makes a block besides what is kept, or leaves just that. -/
inductive Effect (initial : Set Nat) (s : State) (p : Word) (s' : State) : Prop where
  | allocates {kept : Set Nat} {rest : List Block} {b : Block}
      (hkeeps : Keeps initial s p kept rest) (hallocates : Allocates b kept s.kernel s'.kernel)
      (hlive : s'.live = b :: rest)
  | releases {kept : Set Nat} {rest : List Block} (hkeeps : Keeps initial s p kept rest)
      (hpages : s'.kernel.pages = kept)
      (hframe : ∀ x, pageOf pageSize x ∈ kept → s'.kernel.memory x = s.kernel.memory x)
      (hlive : s'.live = rest)

theorem Effect.inv (heffect : Effect initial s p s') : Inv initial s'.kernel s'.live := by
  cases heffect with
  | allocates hkeeps hallocates hlive =>
      rw [hlive]
      exact hkeeps.inv.add hallocates
  | releases hkeeps hpages hframe hlive =>
      rw [hlive]
      refine hkeeps.inv.frame hpages fun b hb x hx => ?_
      exact hframe x (hkeeps.inv.pageOf_mem hb (Block.within_of_header hx))

theorem Effect.others (heffect : Effect initial s p s') {b : Block} (hb : b ∈ s.live)
    (hne : b.pointer ≠ p) :
    b ∈ s'.live ∧ ∀ x, b.Has x → s'.kernel.memory x = s.kernel.memory x := by
  cases heffect with
  | allocates hkeeps hallocates hlive =>
      have hrest := hkeeps.mem b hb hne
      rw [hlive]
      refine ⟨List.mem_cons_of_mem _ hrest, fun x hx => ?_⟩
      exact hallocates.frame x (hkeeps.inv.pageOf_mem hrest (Block.within_of_has hx))
  | releases hkeeps hpages hframe hlive =>
      have hrest := hkeeps.mem b hb hne
      rw [hlive]
      refine ⟨hrest, fun x hx => ?_⟩
      exact hframe x (hkeeps.inv.pageOf_mem hrest (Block.within_of_has hx))

theorem malloc_effect (hinv : Inv initial s.kernel s.live) (hsmall : size.toNat + 8 < 2 ^ 63)
    (hruns : (malloc size).Runs handles s.kernel q s'.kernel)
    (hlive : s'.live = ⟨q, size⟩ :: s.live) : Effect initial s p s' :=
  .allocates (.null hinv) (malloc_runs (by omega) hruns) hlive

theorem free_effect (hinv : Inv initial s.kernel s.live)
    (hruns : (free p).Runs handles s.kernel () s'.kernel) (hpasses : Passes s.live p s'.live) :
    Effect initial s p s' := by
  rcases hpasses with ⟨rfl, hlive⟩ | ⟨size, hperm⟩
  · have hkernel : s'.kernel = s.kernel := hruns.2
    apply Effect.releases (.null hinv) _ _ hlive
    · rw [hkernel]
    · intro x _
      rw [hkernel]
  · have hb := hperm.mem_iff.mpr (List.mem_cons_self ..)
    have hplaced := hinv.placed _ hb
    obtain ⟨hpages, hframe⟩ := free_runs hplaced (hinv.headed _ hb) hplaced.pointer_ne_null hruns
    exact .releases (Keeps.block hinv hperm) hpages hframe rfl

theorem realloc_effect (hinv : Inv initial s.kernel s.live) (hsmall : size.toNat + 8 < 2 ^ 63)
    (hruns : (realloc p size).Runs handles s.kernel q s'.kernel)
    (hpasses : Passes s.live p rest)
    (hlive : s'.live = if p ≠ null ∧ size = 0 then rest else ⟨q, size⟩ :: rest) :
    Effect initial s p s' := by
  by_cases hp : p = null
  · -- `realloc(NULL, size)` is `malloc(size)`, and no live pointer is `NULL`.
    subst hp
    rcases hpasses with ⟨-, rfl⟩ | ⟨old, hperm⟩
    · rw [if_neg fun h => h.1 rfl] at hlive
      exact malloc_effect hinv hsmall hruns hlive
    · have hplaced := hinv.placed _ (hperm.mem_iff.mpr (List.mem_cons_self ..))
      exact absurd rfl hplaced.pointer_ne_null
  · by_cases hsize : size = 0
    · rw [if_pos ⟨hp, hsize⟩] at hlive
      rw [realloc, if_neg hp, if_pos hsize, Prog.runs_bind] at hruns
      obtain ⟨_, _, hfree, _, hk⟩ := hruns
      rw [← hk] at hfree
      rw [← hlive] at hpasses
      exact free_effect hinv hfree hpasses
    · rcases hpasses with ⟨hnull, -⟩ | ⟨old, hperm⟩
      · exact absurd hnull hp
      · have hb := hperm.mem_iff.mpr (List.mem_cons_self ..)
        rw [if_neg fun h => hsize h.2] at hlive
        exact .allocates (Keeps.block hinv hperm)
          (realloc_runs (hinv.placed _ hb) (hinv.headed _ hb) hp hsize (by omega) hruns).1 hlive

theorem step_effect {operation : Operation} (hinv : Inv initial s.kernel s.live)
    (hstep : step operation s s') (hpassed : operation.passed = some p) :
    Effect initial s p s' := by
  cases operation with
  | malloc size q =>
      obtain ⟨hsmall, hruns, hlive⟩ := hstep
      exact malloc_effect hinv hsmall hruns hlive
  | realloc p' size q =>
      cases hpassed
      obtain ⟨hsmall, hruns, rest, hpasses, hlive⟩ := hstep
      exact realloc_effect hinv hsmall hruns hpasses hlive
  | free p' =>
      cases hpassed
      exact free_effect hinv hstep.1 hstep.2
  | write addr value => exact nomatch hpassed

theorem step_inv {operation : Operation} (hinv : Inv initial s.kernel s.live)
    (hstep : step operation s s') : Inv initial s'.kernel s'.live := by
  cases hpassed : operation.passed with
  | some p => exact (step_effect hinv hstep hpassed).inv
  | none =>
      cases operation with
      | write addr value =>
          obtain ⟨⟨b, hb, haddr⟩, rfl⟩ := hstep
          exact hinv.write hb haddr value
      | malloc | realloc | free => exact nomatch hpassed

theorem step_preserves {operation : Operation} (hinv : Inv initial s.kernel s.live)
    (hstep : step operation s s') : Preserves s operation s' where
  resized := by
    rintro p size q rfl old hold i hi
    obtain ⟨hsmall, hruns, -⟩ := hstep
    have hplaced := hinv.placed _ hold
    have hsize : size ≠ 0 := by
      rintro rfl
      simp at hi
    exact (realloc_runs hplaced (hinv.headed _ hold) hplaced.pointer_ne_null hsize (by omega)
      hruns).2 i hi
  others p hpassed b hb hne := (step_effect hinv hstep hpassed).others hb hne

/-! A call succeeds wherever the kernel can serve it, and `free` always does. -/

theorem exists_malloc {adr : Word} {k : Kernel 64} (hsmall : size.toNat + 8 < 2 ^ 63)
    (hmaps : Maps pageSize s.kernel adr (size + header).toNat k) :
    ∃ s', step (.malloc size (adr + header)) s s' :=
  ⟨⟨_, _⟩, hsmall, runs_malloc (by omega) hmaps, rfl⟩

theorem exists_realloc {adr : Word} {k : Kernel 64} {b : Block}
    (hinv : Inv initial s.kernel s.live) (hb : b ∈ s.live) (hsize : size ≠ 0)
    (hsmall : size.toNat + 8 < 2 ^ 63)
    (hremaps : Remaps pageSize s.kernel b.base (b.size.toNat + 8) adr (size + header).toNat k) :
    ∃ s', step (.realloc b.pointer size (adr + header)) s s' := by
  obtain ⟨first, second, hlive⟩ := List.append_of_mem hb
  have hplaced := hinv.placed b hb
  refine ⟨⟨_, _⟩, hsmall, runs_realloc hplaced (hinv.headed b hb) hplaced.pointer_ne_null hsize
    (by omega) hremaps, first ++ second, .inr ⟨b.size, ?_⟩, rfl⟩
  rw [hlive]
  exact List.perm_middle

theorem exists_free {b : Block} (hinv : Inv initial s.kernel s.live) (hb : b ∈ s.live) :
    ∃ s', step (.free b.pointer) s s' := by
  obtain ⟨first, second, hlive⟩ := List.append_of_mem hb
  have hplaced := hinv.placed b hb
  refine ⟨⟨_, first ++ second⟩, runs_free hplaced (hinv.headed b hb) hplaced.pointer_ne_null
    (hinv.mapping_subset hb), .inr ⟨b.size, ?_⟩⟩
  rw [hlive]
  exact List.perm_middle

end Steps

/-! ### Runs -/

/-- The live blocks share no byte, and each lies with its header in a mapping of its own, whose
length is in the header. -/
structure BlocksOk (initial : Set Nat) (s : State) : Prop where
  apart : s.live.Pairwise fun b b' => Apart b.pointer b.size.toNat b'.pointer b'.size.toNat
  own : s.live.Pairwise fun b b' => Disjoint b.mapping b'.mapping
  mapped : ∀ b ∈ s.live, b.mapping ⊆ s.kernel.pages \ initial
  inside : ∀ b ∈ s.live, ∀ x, b.Has x ∨ Within b.base 8 x → pageOf pageSize x ∈ b.mapping
  headed : ∀ b ∈ s.live, b.Headed s.kernel

theorem Inv.blocksOk {initial : Set Nat} {s : State} (hinv : Inv initial s.kernel s.live) :
    BlocksOk initial s := by
  have hinside : ∀ b ∈ s.live, ∀ x, b.Has x ∨ Within b.base 8 x →
      pageOf pageSize x ∈ b.mapping := by
    intro b hb x hx
    apply Block.pageOf_mem_mapping (hinv.placed b hb)
    exact hx.elim Block.within_of_has Block.within_of_header
  refine ⟨?_, hinv.disjoint_mapping, fun b hb page hpage => ?_, hinside, hinv.headed⟩
  · refine hinv.disjoint_mapping.imp_of_mem fun hb hb' hdisjoint x hx hx' => ?_
    exact Set.disjoint_left.mp hdisjoint (hinside _ hb x (.inl hx)) (hinside _ hb' x (.inl hx'))
  · have hapart := (List.pairwise_append.mp hinv.partition.apart).2.2
    have hdisjoint := hapart b.mapping (List.mem_map_of_mem hb) initial (List.mem_singleton_self _)
    exact ⟨hinv.mapping_subset hb hpage, Set.disjoint_left.mp hdisjoint hpage⟩

theorem run_inv {initial : Set Nat} (run : Run (allocator initial)) :
    ∀ i, i ≤ run.length → Inv initial (run.state i).kernel (run.state i).live := by
  refine run.induction ?_ fun i hi hinv => step_inv hinv (run.steps i hi)
  obtain ⟨hpages, hlive⟩ := run.starts
  rw [hlive]
  refine ⟨?_, List.forall_mem_nil _, List.forall_mem_nil _⟩
  rw [hpages]
  exact Partition.singleton initial

theorem allocator_blocks (initial : Set Nat) (run : Run (allocator initial)) :
    (∀ i ≤ run.length, BlocksOk initial (run.state i)) ∧
      (∀ i < run.length, Preserves (run.state i) (run.label i) (run.state (i + 1))) ∧
      ∀ i ≤ run.length, (run.state i).live = [] → (run.state i).kernel.pages = initial := by
  refine ⟨fun i hi => ?_, fun i hi => ?_, fun i hi hlive => ?_⟩
  · exact (run_inv run i hi).blocksOk
  · exact step_preserves (run_inv run i hi.le) (run.steps i hi)
  · have hpartition := (run_inv run i hi).partition
    rw [hlive] at hpartition
    exact hpartition.eq_of_singleton

end Acos.Malloc
