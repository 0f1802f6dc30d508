import Acos.Lib.ByteMemory
import Mathlib.Data.Set.Lattice
import Mathlib.Order.CompletePartialOrder

/-!
# Mapped pages

The address space of a process is a set of mapped pages and the memory in them. The relations below
are the contracts of the calls that change the set. How the pages are shared out among their owners
is a partition, and a call that adds or removes a mapping adds or removes a region of it.
-/

namespace VirtualMemory

open ByteMemory

/-! ### Partitions -/

variable {α : Type} {total region : Set α} {regions regions' : List (Set α)}

/-- The regions are disjoint and make up the whole. -/
structure Partition (total : Set α) (regions : List (Set α)) : Prop where
  mem_iff : ∀ x, x ∈ total ↔ ∃ region ∈ regions, x ∈ region
  apart : regions.Pairwise Disjoint

namespace Partition

theorem singleton (total : Set α) : Partition total [total] := ⟨by simp, by simp⟩

theorem eq_of_singleton (hpartition : Partition total [region]) : total = region := by
  ext x
  rw [hpartition.mem_iff]
  simp

theorem subset (hpartition : Partition total regions) (hregion : region ∈ regions) :
    region ⊆ total :=
  fun x hx => (hpartition.mem_iff x).mpr ⟨region, hregion, hx⟩

theorem perm (hpartition : Partition total regions) (hperm : regions.Perm regions') :
    Partition total regions' where
  mem_iff x := by
    rw [hpartition.mem_iff]
    simp only [hperm.mem_iff]
  apart := (hperm.pairwise_iff fun hdisjoint => hdisjoint.symm).mp hpartition.apart

theorem add (hpartition : Partition total regions) (hfresh : Disjoint region total) :
    Partition (total ∪ region) (region :: regions) where
  mem_iff x := by
    rw [Set.mem_union, hpartition.mem_iff]
    simp only [List.mem_cons, exists_eq_or_imp]
    exact or_comm
  apart := by
    refine List.pairwise_cons.mpr ⟨fun other hother => ?_, hpartition.apart⟩
    exact hfresh.mono_right (hpartition.subset hother)

theorem remove (hpartition : Partition total (region :: regions)) :
    Partition (total \ region) regions where
  mem_iff x := by
    have hapart := (List.pairwise_cons.mp hpartition.apart).1
    rw [Set.mem_sdiff, hpartition.mem_iff]
    constructor
    · rintro ⟨⟨other, hother, hx⟩, hnot⟩
      rcases List.mem_cons.mp hother with rfl | hother
      · exact absurd hx hnot
      · exact ⟨other, hother, hx⟩
    · rintro ⟨other, hother, hx⟩
      refine ⟨⟨other, List.mem_cons_of_mem _ hother, hx⟩, fun hregion => ?_⟩
      exact Set.disjoint_left.mp (hapart other hother) hregion hx
  apart := hpartition.apart.of_cons

end Partition

/-! ### Pages -/

variable {w size : Nat} {a x : BitVec w} {n : Nat}

structure Kernel (w : Nat) where
  pages : Set Nat
  memory : Memory w

/-- The page of an address, for pages of `size` bytes. -/
def pageOf (size : Nat) (x : BitVec w) : Nat := x.toNat / size

/-- The pages the range of `n` bytes from `a` overlaps. -/
def pagesOf (size : Nat) (a : BitVec w) (n : Nat) : Set Nat :=
  {page | page * size < a.toNat + n ∧ a.toNat < (page + 1) * size}

def Aligned (size : Nat) (a : BitVec w) : Prop := a.toNat % size = 0

instance : Decidable (Aligned size a) := inferInstanceAs (Decidable (_ = _))

/-- Every byte of the range is mapped. -/
def Mapped (size : Nat) (k : Kernel w) (a : BitVec w) (n : Nat) : Prop :=
  ∀ x, Within a n x → pageOf size x ∈ k.pages

theorem pageOf_mem_pagesOf (hsize : 0 < size) (hfits : a.toNat + n ≤ 2 ^ w) (hx : Within a n x) :
    pageOf size x ∈ pagesOf size a n := by
  obtain ⟨hle, hlt⟩ := (within_iff_of_le hfits x).mp hx
  constructor
  · exact (Nat.div_mul_le_self _ _).trans_lt hlt
  · exact hle.trans_lt ((Nat.div_lt_iff_lt_mul hsize).mp (Nat.lt_succ_self _))

/-- The beginning of the page of an address, where the size of a page is a power of two. -/
theorem toNat_and_not {k : Nat} (x : BitVec w) {mask : BitVec w} (hmask : mask.toNat = 2 ^ k - 1) :
    (x &&& ~~~mask).toNat = pageOf (2 ^ k) x * 2 ^ k := by
  apply Nat.eq_of_testBit_eq
  intro i
  have hbit : mask.getLsbD i = decide (i < k) := by
    rw [← BitVec.testBit_toNat, hmask, Nat.testBit_two_pow_sub_one]
  rw [pageOf, Nat.testBit_mul_two_pow, Nat.testBit_div_two_pow, BitVec.testBit_toNat,
    BitVec.testBit_toNat, BitVec.getLsbD_and, BitVec.getLsbD_not, hbit]
  rcases Nat.lt_or_ge i k with hlt | hge
  · simp [hlt, Nat.not_le.mpr hlt]
  · rw [Nat.sub_add_cancel hge]
    by_cases hi : i < w
    · simp [hge, hi, Nat.not_lt.mpr hge]
    · simp [hi, Nat.not_lt.mp hi]

/-! ### Calls -/

/-- A new mapping of zeros at `a`. -/
structure Maps (size : Nat) (k : Kernel w) (a : BitVec w) (n : Nat) (k' : Kernel w) : Prop where
  aligned : Aligned size a
  fits : a.toNat + n ≤ 2 ^ w
  fresh : Disjoint (pagesOf size a n) k.pages
  pages : k'.pages = k.pages ∪ pagesOf size a n
  zero : ∀ x, pageOf size x ∈ pagesOf size a n → k'.memory x = 0
  frame : ∀ x, pageOf size x ∈ k.pages → k'.memory x = k.memory x

/-- The pages of the range are gone. -/
structure Unmaps (size : Nat) (k : Kernel w) (a : BitVec w) (n : Nat) (k' : Kernel w) : Prop where
  pages : k'.pages = k.pages \ pagesOf size a n
  frame : ∀ x, pageOf size x ∈ k.pages \ pagesOf size a n → k'.memory x = k.memory x

/-- The mapping of `m` bytes at `old` has become one of `n` bytes, in place or at a new address. -/
structure Remaps (size : Nat) (k : Kernel w) (old : BitVec w) (m : Nat) (a : BitVec w) (n : Nat)
    (k' : Kernel w) : Prop where
  mapped : pagesOf size old m ⊆ k.pages
  aligned : Aligned size a
  fits : a.toNat + n ≤ 2 ^ w
  fresh : a = old ∧ Disjoint (pagesOf size a n) (k.pages \ pagesOf size old m) ∨
    Disjoint (pagesOf size a n) k.pages
  pages : k'.pages = k.pages \ pagesOf size old m ∪ pagesOf size a n
  kept : ∀ i < min m n, k'.memory (a + BitVec.ofNat w i) = k.memory (old + BitVec.ofNat w i)
  frame : ∀ x, pageOf size x ∈ k.pages \ pagesOf size old m → k'.memory x = k.memory x

theorem Remaps.disjoint {k k' : Kernel w} {old : BitVec w} {m : Nat}
    (hremaps : Remaps size k old m a n k') :
    Disjoint (pagesOf size a n) (k.pages \ pagesOf size old m) := by
  rcases hremaps.fresh with ⟨-, hplace⟩ | hmoved
  · exact hplace
  · exact hmoved.mono_right Set.sdiff_subset

end VirtualMemory
