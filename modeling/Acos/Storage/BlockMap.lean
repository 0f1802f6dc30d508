import Acos.Lib.Ownership
import Acos.Storage.Files

/-!
# The blocks of files

A place that can hold the address of a block is one of the addresses of an inode or of its block of
addresses. The account of the blocks is exact: the map has the bits of the blocks before the data
and of those that some place holds, and no block is held by two places. Allocating a block for a
place leaves the contents of every file as they are.
-/

namespace Acos.Storage.Fs

open ByteMemory Ownership Outcome

/-! ### The map -/

namespace Disk

@[simp] theorem put_sb (d : Disk) (b : Word) (data : Data) : (d.put b data).sb = d.sb := rfl

@[simp]
theorem put_block_self (d : Disk) (b : Word) (data : Data) : (d.put b data).block b = data := by
  simp only [put, Function.update_self]

theorem put_block_of_ne (d : Disk) {b c : Word} (data : Data) (hne : c ≠ b) :
    (d.put b data).block c = d.block c := by
  simp only [put, Function.update_of_ne hne]

theorem used_put_of_ne (d : Disk) {b : Word} {c : Nat} (data : Data) (hne : d.sb.BBLOCK c ≠ b) :
    (d.put b data).used c = d.used c := by
  rw [used, used, put_sb, put_block_of_ne d data hne]

/-- What changing one bit does to the whole map. -/
theorem used_put_map {d : Disk} (hvalid : d.sb.Valid) {b c : Nat} (hb : b < d.sb.size.toNat)
    (hc : c < d.sb.size.toNat) {data : Data} {v : Bool → Bool}
    (hself : BitTable.test data (b % 4096) = v (d.used b))
    (hother : ∀ k, k < 4096 → k ≠ b % 4096 →
      BitTable.test data k = BitTable.test (d.block (d.sb.BBLOCK b)) k) :
    (d.put (d.sb.BBLOCK b) data).used c = if c = b then v (d.used b) else d.used c := by
  by_cases hcb : c = b
  · subst hcb
    rw [if_pos rfl, used, put_sb, put_block_self]
    exact hself
  · rw [if_neg hcb]
    by_cases hblock : d.sb.BBLOCK c = d.sb.BBLOCK b
    · have hdiv := hvalid.BBLOCK_inj hc hb hblock
      rw [used, put_sb, hblock, put_block_self, used, hblock]
      exact hother (c % 4096) (Nat.mod_lt c (by decide)) (by omega)
    · exact used_put_of_ne d data hblock

theorem used_mark {d : Disk} (hvalid : d.sb.Valid) {b c : Nat} (hb : b < d.sb.size.toNat)
    (hc : c < d.sb.size.toNat) : (d.mark b).used c = if c = b then true else d.used c := by
  have hb' : b % 4096 < 8 * 2 ^ 9 := Nat.mod_lt b (by decide)
  refine used_put_map (v := fun _ => true) hvalid hb hc ?_ ?_
  · exact (BitTable.test_mark hb' hb').trans (by simp)
  · intro k hk hne
    exact (BitTable.test_mark hb' hk).trans (by simp [hne])

theorem used_unmark {d : Disk} (hvalid : d.sb.Valid) {b c : Nat} (hb : b < d.sb.size.toNat)
    (hc : c < d.sb.size.toNat) : (d.unmark b).used c = if c = b then false else d.used c := by
  have hb' : b % 4096 < 8 * 2 ^ 9 := Nat.mod_lt b (by decide)
  refine used_put_map (v := fun _ => false) hvalid hb hc ?_ ?_
  · exact (BitTable.test_clear hb' hb').trans (by simp)
  · intro k hk hne
    exact (BitTable.test_clear hb' hk).trans (by simp [hne])

theorem test_eq_used (d : Disk) {k bi : Nat} (hbi : bi < 4096) :
    BitTable.test (d.block (d.sb.BBLOCK (k * 4096))) bi = d.used (k * 4096 + bi) := by
  have hblock : d.sb.BBLOCK (k * 4096 + bi) = d.sb.BBLOCK (k * 4096) := by
    show BitVec.ofNat 32 ((k * 4096 + bi) / 4096) + _ = BitVec.ofNat 32 (k * 4096 / 4096) + _
    rw [show (k * 4096 + bi) / 4096 = k by omega, show k * 4096 / 4096 = k by omega]
  have hbit : (k * 4096 + bi) % 4096 = bi := by omega
  show _ = BitTable.test (d.block (d.sb.BBLOCK (k * 4096 + bi))) ((k * 4096 + bi) % 4096)
  rw [hblock, hbit]

theorem freeBlock_some {d : Disk} {b : Nat} (hfree : d.freeBlock = some b) :
    b < d.sb.size.toNat ∧ d.used b = false := by
  obtain ⟨k, -, hk⟩ := List.exists_of_findSome?_eq_some hfree
  obtain ⟨bi, hbi, rfl⟩ := Option.map_eq_some_iff.mp hk
  have hmem := List.mem_range.mp (List.mem_of_find?_eq_some hbi)
  have hfound := List.find?_some hbi
  have hclear : (!BitTable.test (d.block (d.sb.BBLOCK (k * 4096))) bi) = true := hfound
  have hlt : bi < 4096 := hmem.trans_le (Nat.min_le_left 4096 _)
  have hsize : bi < d.sb.size.toNat - k * 4096 := hmem.trans_le (Nat.min_le_right 4096 _)
  refine ⟨show k * 4096 + bi < _ by omega, ?_⟩
  show d.used (k * 4096 + bi) = false
  rw [← d.test_eq_used hlt]
  simpa using hclear

theorem freeBlock_none {d : Disk} (hfull : d.freeBlock = none) {b : Nat}
    (hb : b < d.sb.size.toNat) : d.used b = true := by
  have hk : b / 4096 ∈ List.range ((d.sb.size.toNat + BPB - 1) / BPB) := by
    show b / 4096 ∈ List.range ((d.sb.size.toNat + 4096 - 1) / 4096)
    rw [List.mem_range]
    omega
  have hclear := Option.map_eq_none_iff.mp (List.findSome?_eq_none_iff.mp hfull _ hk)
  have hbi : b % 4096 ∈ List.range (min BPB (d.sb.size.toNat - b / 4096 * BPB)) := by
    show b % 4096 ∈ List.range (min 4096 (d.sb.size.toNat - b / 4096 * 4096))
    rw [List.mem_range]
    omega
  have hbit : ¬(!BitTable.test (d.block (d.sb.BBLOCK (b / 4096 * 4096))) (b % 4096)) = true :=
    List.find?_eq_none.mp hclear _ hbi
  rw [d.test_eq_used (Nat.mod_lt b (by decide)), show b / 4096 * 4096 + b % 4096 = b by omega]
    at hbit
  simpa using hbit

/-- The block is in use. -/
def Used (d : Disk) (a : Word) : Prop := a.toNat < d.sb.size.toNat ∧ d.used a.toNat = true

/-- No block is free. -/
def Full (d : Disk) : Prop := ∀ b, b < d.sb.size.toNat → d.used b = true

/-- What `balloc` does with the block it finds. -/
def take (d : Disk) (a : Word) : Disk := (d.mark a.toNat).put a .zero

/-- The blocks before the map and `sb` are as before. -/
structure Kept (d d' : Disk) : Prop where
  sb : d'.sb = d.sb
  block : ∀ c : Word, c.toNat < d.sb.bmapstart.toNat → d'.block c = d.block c

theorem Kept.refl (d : Disk) : Kept d d := ⟨rfl, fun _ _ => rfl⟩

theorem Kept.trans {d d' d'' : Disk} (h : Kept d d') (h' : Kept d' d'') : Kept d d'' where
  sb := h'.sb.trans h.sb
  block c hc := (h'.block c (by rwa [h.sb])).trans (h.block c hc)

theorem Kept.put {d : Disk} {b : Word} (hb : d.sb.bmapstart.toNat ≤ b.toNat) (data : Data) :
    Kept d (d.put b data) where
  sb := rfl
  block c hc := by
    refine put_block_of_ne d data ?_
    rintro rfl
    omega

theorem Kept.dinode {d d' : Disk} (h : Kept d d') (hvalid : d.sb.Valid) {i : Nat}
    (hi : i < d.sb.ninodes.toNat) : d'.dinode i = d.dinode i := by
  rw [Disk.dinode, Disk.dinode, h.sb, h.block _ (hvalid.IBLOCK_lt hi)]

end Disk

theorem balloc_post {d : Disk} :
    Post (balloc d)
      (fun a d' => a.toNat < d.sb.size.toNat ∧ ¬d.Used a ∧ d' = d.take a)
      (fun e d' => e = .outOfBlocks ∧ d' = d ∧ d.Full) := by
  simp only [balloc, post_bind, post_get]
  cases hfree : d.freeBlock with
  | none => exact ⟨rfl, rfl, fun b hb => Disk.freeBlock_none hfree hb⟩
  | some b =>
      obtain ⟨hb, hclear⟩ := Disk.freeBlock_some hfree
      have hsize := d.sb.size.isLt
      have hnat : (BitVec.ofNat 32 b).toNat = b := by
        rw [BitVec.toNat_ofNat, Nat.mod_eq_of_lt (by omega)]
      simp only [post_bind, post_modify, bzero, post_pure]
      refine ⟨by rwa [hnat], ?_, ?_⟩
      · rintro ⟨-, hused⟩
        rw [hnat, hclear] at hused
        cases hused
      · rw [Disk.take, hnat]

/-! ### Places -/

/-- The places of an inode. -/
inductive Slot where
  | direct (k : Fin NDIRECT)
  | table
  | entry (j : Fin NINDIRECT)
  deriving DecidableEq

/-- The offset of the first byte that needs the place. -/
def Slot.first : Slot → Nat
  | .direct k => 512 * k
  | .table => 512 * 12
  | .entry j => 512 * (12 + j)

/-- The place of the address of a block of the file. -/
def Slot.ofBlock (bn : Nat) : Slot :=
  if hbn : bn < NDIRECT then .direct ⟨bn, hbn⟩
  else if hbn' : bn - NDIRECT < NINDIRECT then .entry ⟨bn - NDIRECT, hbn'⟩
  else .table

def Slot.addr (block : Word → Data) (ip : Inode) : Slot → Word
  | .direct k => ip.addrs k.castSucc
  | .table => ip.addrs (Fin.last NDIRECT)
  | .entry j =>
      if ip.addrs (Fin.last NDIRECT) = 0 then 0 else (block (ip.addrs (Fin.last NDIRECT))).word j

/-- The address `0` stands for no block. -/
def ref (a : Word) : Option Word := if a = 0 then none else some a

abbrev Place := Nat × Slot

def holds (block : Word → Data) (inodes : Nat → Inode) (p : Place) : Option Word :=
  ref (p.2.addr block (inodes p.1))

/-- A byte of a file. Where it has no block there is a zero. -/
def byteAt (block : Word → Data) (inodes : Nat → Inode) (i off : Nat) : Byte :=
  match holds block inodes (i, .ofBlock (off / 512)) with
  | some a => block a (BitVec.ofNat 9 (off % 512))
  | none => 0

@[simp] theorem ref_zero : ref 0#32 = none := rfl

@[simp]
theorem ref_eq_none {a : Word} : ref a = none ↔ a = 0 := by
  unfold ref
  split <;> simp_all

@[simp]
theorem ref_eq_some {a b : Word} : ref a = some b ↔ a = b ∧ b ≠ 0 := by
  unfold ref
  split
  · simp_all
  · simp only [Option.some.injEq]
    constructor
    · rintro rfl
      exact ⟨rfl, by assumption⟩
    · exact And.left

theorem ref_of_ne {a : Word} (ha : a ≠ 0) : ref a = some a := if_neg ha

theorem Slot.ofBlock_of_lt {bn : Nat} (hbn : bn < NDIRECT) :
    Slot.ofBlock bn = .direct ⟨bn, hbn⟩ := dif_pos hbn

theorem Slot.ofBlock_of_le {bn : Nat} (hge : ¬bn < NDIRECT) (hlt : bn - NDIRECT < NINDIRECT) :
    Slot.ofBlock bn = .entry ⟨bn - NDIRECT, hlt⟩ := by
  rw [ofBlock, dif_neg hge, dif_pos hlt]

theorem sub_lt_of_lt_maxfile {bn : Nat} (hbn : bn < MAXFILE) : bn - NDIRECT < NINDIRECT := by
  have hbn' : bn < 140 := hbn
  show bn - 12 < 128
  omega

theorem Slot.ofBlock_ne_table {bn : Nat} (hbn : bn < MAXFILE) : Slot.ofBlock bn ≠ .table := by
  by_cases hlt : bn < NDIRECT
  · rw [ofBlock_of_lt hlt]
    exact Slot.noConfusion
  · rw [ofBlock_of_le hlt (sub_lt_of_lt_maxfile hbn)]
    exact Slot.noConfusion

theorem Slot.first_ofBlock {bn : Nat} (hbn : bn < MAXFILE) :
    (Slot.ofBlock bn).first = 512 * bn := by
  by_cases hlt : bn < NDIRECT
  · rw [ofBlock_of_lt hlt]
    rfl
  · have hge : ¬bn < 12 := hlt
    rw [ofBlock_of_le hlt (sub_lt_of_lt_maxfile hbn)]
    show 512 * (12 + (bn - 12)) = 512 * bn
    omega

theorem Slot.ofBlock_inj {b c : Nat} (hb : b < MAXFILE) (hc : c < MAXFILE)
    (heq : Slot.ofBlock b = Slot.ofBlock c) : b = c := by
  have hfirst := congrArg Slot.first heq
  rw [first_ofBlock hb, first_ofBlock hc] at hfirst
  omega

/-- The account of the blocks is exact for the inodes, those behind the last of them being blank. -/
structure Owned (d : Disk) (inodes : Nat → Inode) : Prop where
  valid : d.sb.Valid
  super : SuperBlock.decode (d.block 1) = d.sb
  blank : ∀ i, d.sb.ninodes.toNat ≤ i → inodes i = .blank
  exact : Exact (fun a : Word => a.toNat < d.sb.dataStart) d.Used (holds d.block inodes)

namespace Owned

variable {d : Disk} {inodes : Nat → Inode} (h : Owned d inodes)
include h

theorem dataStart_le {p : Place} {a : Word} (hp : holds d.block inodes p = some a) :
    d.sb.dataStart ≤ a.toNat := Nat.le_of_not_lt (h.exact.apart p a hp)

theorem lt_size {p : Place} {a : Word} (hp : holds d.block inodes p = some a) :
    a.toNat < d.sb.size.toNat := (h.exact.used hp).1

theorem dataStart_le_of_free {a : Word} (hfree : ¬d.Used a) : d.sb.dataStart ≤ a.toNat :=
  Nat.le_of_not_lt (h.exact.not_reserved_of_not_used hfree)

end Owned

namespace Disk

variable {d : Disk} {a : Word}

@[simp] theorem take_block_self : (d.take a).block a = .zero := put_block_self _ _ _

theorem take_block_of_ne {c : Word} (hvalid : d.sb.Valid) (ha : a.toNat < d.sb.size.toNat)
    (hca : c ≠ a) (hc : d.sb.dataStart ≤ c.toNat) : (d.take a).block c = d.block c := by
  have hmap := hvalid.BBLOCK_lt ha
  rw [take, put_block_of_ne _ _ hca]
  refine put_block_of_ne d _ ?_
  rintro rfl
  omega

theorem kept_take (hvalid : d.sb.Valid) (ha : a.toNat < d.sb.size.toNat)
    (hdata : d.sb.dataStart ≤ a.toNat) : Kept d (d.take a) :=
  (Kept.put (hvalid.le_BBLOCK ha) _).trans
    (Kept.put (d := d.mark a.toNat) (d.sb.bmapstart_lt.le.trans hdata) _)

theorem used_put_data {c : Word} (data : Data) (hvalid : d.sb.Valid)
    (hc : d.sb.dataStart ≤ c.toNat) (b : Word) : (d.put c data).Used b ↔ d.Used b := by
  refine and_congr_right fun hb => ?_
  have hmap := hvalid.BBLOCK_lt hb
  rw [used_put_of_ne]
  rintro rfl
  omega

theorem used_take (hvalid : d.sb.Valid) (ha : a.toNat < d.sb.size.toNat)
    (hdata : d.sb.dataStart ≤ a.toNat) (b : Word) : (d.take a).Used b ↔ b = a ∨ d.Used b := by
  have hput := used_put_data (d := d.mark a.toNat) .zero hvalid hdata b
  rw [take, hput]
  constructor
  · rintro ⟨hb, hused⟩
    rw [used_mark hvalid ha hb] at hused
    by_cases hba : b.toNat = a.toNat
    · exact .inl (BitVec.eq_of_toNat_eq hba)
    · rw [if_neg hba] at hused
      exact .inr ⟨hb, hused⟩
  · rintro (rfl | ⟨hb, hused⟩)
    · exact ⟨ha, by rw [used_mark hvalid ha ha, if_pos rfl]⟩
    · refine ⟨hb, ?_⟩
      rw [used_mark hvalid ha hb]
      split <;> simp_all

end Disk

/-! ### What the places hold -/

theorem holds_entry {block : Word → Data} {inodes : Nat → Inode} {i : Nat} {t : Word}
    (htable : holds block inodes (i, .table) = some t) (j : Fin NINDIRECT) :
    holds block inodes (i, .entry j) = ref ((block t).word j) := by
  obtain ⟨haddr, ht⟩ := ref_eq_some.mp htable
  have haddr' : (inodes i).addrs (Fin.last NDIRECT) = t := haddr
  simp only [holds, Slot.addr, haddr', if_neg ht]

theorem holds_entry_none {block : Word → Data} {inodes : Nat → Inode} {i : Nat}
    (hempty : holds block inodes (i, .table) = none) (j : Fin NINDIRECT) :
    holds block inodes (i, .entry j) = none := by
  have htable : (inodes i).addrs (Fin.last NDIRECT) = 0 := ref_eq_none.mp hempty
  simp only [holds, Slot.addr, htable, if_true]
  rfl

theorem holds_congr {block block' : Word → Data} {inodes : Nat → Inode}
    (hsame : ∀ j c, holds block inodes (j, .table) = some c → block' c = block c) :
    holds block' inodes = holds block inodes := by
  funext ⟨j, s⟩
  cases s with
  | direct k => rfl
  | table => rfl
  | entry k =>
      cases htable : holds block inodes (j, .table) with
      | none =>
          have htable' : holds block' inodes (j, .table) = none := htable
          rw [holds_entry_none htable, holds_entry_none htable']
      | some t =>
          have htable' : holds block' inodes (j, .table) = some t := htable
          rw [holds_entry htable, holds_entry htable', hsame j t htable]

theorem holds_setDirect (block : Word → Data) (inodes : Nat → Inode) (i : Nat) (k : Fin NDIRECT)
    (a : Word) :
    holds block (Function.update inodes i ((inodes i).setAddr k.castSucc a))
      = Function.update (holds block inodes) (i, .direct k) (ref a) := by
  funext ⟨j, s⟩
  by_cases hj : j = i
  · subst hj
    cases s with
    | direct l =>
        by_cases hl : l = k
        · subst hl
          simp [holds, Slot.addr, Inode.setAddr]
        · simp [holds, Slot.addr, Inode.setAddr, hl]
    | table => simp [holds, Slot.addr, Inode.setAddr, (Fin.castSucc_lt_last k).ne']
    | entry l => simp [holds, Slot.addr, Inode.setAddr, (Fin.castSucc_lt_last k).ne']
  · simp [holds, hj]

theorem holds_setTable {block : Word → Data} {inodes : Nat → Inode} {i : Nat} {a : Word}
    (hempty : holds block inodes (i, .table) = none) (hzero : block a = .zero) :
    holds block (Function.update inodes i ((inodes i).setAddr (Fin.last NDIRECT) a))
      = Function.update (holds block inodes) (i, .table) (ref a) := by
  have htable : (inodes i).addrs (Fin.last NDIRECT) = 0 := ref_eq_none.mp hempty
  funext ⟨j, s⟩
  by_cases hj : j = i
  · subst hj
    cases s with
    | direct l => simp [holds, Slot.addr, Inode.setAddr, (Fin.castSucc_lt_last l).ne]
    | table => simp [holds, Slot.addr, Inode.setAddr]
    | entry l => simp [holds, Slot.addr, Inode.setAddr, htable, hzero]
  · simp [holds, hj]

theorem holds_setEntry (block : Word → Data) {inodes : Nat → Inode} {i : Nat} {t : Word}
    (j : Fin NINDIRECT) (a : Word) (htable : holds block inodes (i, .table) = some t)
    (hsingle : ∀ j, holds block inodes (j, .table) = some t → j = i) :
    holds (Function.update block t ((block t).setWord j a)) inodes
      = Function.update (holds block inodes) (i, .entry j) (ref a) := by
  have hkeep : ∀ m, holds (Function.update block t ((block t).setWord j a)) inodes (m, .table)
      = holds block inodes (m, .table) := fun _ => rfl
  funext ⟨m, s⟩
  cases s with
  | direct l =>
      rw [Function.update_of_ne (by simp)]
      rfl
  | table =>
      rw [Function.update_of_ne (by simp)]
      rfl
  | entry l =>
      cases hm : holds block inodes (m, .table) with
      | none =>
          have hmi : (m, Slot.entry l) ≠ (i, Slot.entry j) := by
            rintro ⟨rfl, -⟩
            rw [htable] at hm
            cases hm
          rw [Function.update_of_ne hmi, holds_entry_none hm,
            holds_entry_none ((hkeep m).trans hm)]
      | some c =>
          rw [holds_entry ((hkeep m).trans hm)]
          by_cases hmi : m = i
          · subst hmi
            cases htable.symm.trans hm
            rw [Function.update_self, Data.word_setWord _ _ j.isLt l.isLt]
            by_cases hl : l = j
            · rw [if_pos (congrArg _ hl), hl, Function.update_self]
            · rw [if_neg (fun hval => hl (Fin.ext hval)), Function.update_of_ne (by simp [hl]),
                holds_entry hm]
          · have hct : c ≠ t := fun hct => hmi (hsingle m (hct ▸ hm))
            rw [Function.update_of_ne hct, Function.update_of_ne (by simp [hmi]), holds_entry hm]

/-! ### Allocating a block for a place -/

/-- The contents do not change if an empty place gets a block of zeros and the other blocks of
files, those of addresses apart, stay. -/
theorem byteAt_of_update {block block' : Word → Data} {inodes inodes' : Nat → Inode} {p : Place}
    {a : Word} (hempty : holds block inodes p = none) (hzero : block' a = .zero)
    (hholds : holds block' inodes' = Function.update (holds block inodes) p (some a))
    (hsame : ∀ q c, q.2 ≠ .table → holds block inodes q = some c → block' c = block c)
    {i off : Nat} (hoff : off < MAXFILE * 512) :
    byteAt block' inodes' i off = byteAt block inodes i off := by
  have hbn : off / 512 < MAXFILE := by
    have hoff' : off < 140 * 512 := hoff
    show off / 512 < 140
    omega
  unfold byteAt
  rw [hholds]
  by_cases hp : (i, Slot.ofBlock (off / 512)) = p
  · rw [hp, Function.update_self, hempty]
    show block' a _ = 0
    rw [hzero]
    rfl
  · rw [Function.update_of_ne hp]
    cases hc : holds block inodes (i, .ofBlock (off / 512)) with
    | none => rfl
    | some c =>
        show block' c _ = block c _
        rw [hsame _ c (Slot.ofBlock_ne_table hbn) hc]

/-- What an allocation for the place `p` does. -/
structure Grown (d : Disk) (inodes : Nat → Inode) (p : Place) (a : Word) (d' : Disk)
    (inodes' : Nat → Inode) : Prop where
  owned : Owned d' inodes'
  kept : d.Kept d'
  ne_zero : a ≠ 0
  holds_eq : holds d'.block inodes' = Function.update (holds d.block inodes) p (some a)
  byteAt_eq : ∀ i off, off < MAXFILE * 512 →
    byteAt d'.block inodes' i off = byteAt d.block inodes i off

section Grow

variable {d : Disk} {inodes : Nat → Inode} {i : Nat} {a : Word}

theorem Owned.grow (h : Owned d inodes) {d' : Disk} {inodes' : Nat → Inode} {p : Place}
    (hfree : ¬d.Used a) (hempty : holds d.block inodes p = none) (hkept : d.Kept d')
    (hblank : ∀ j, d.sb.ninodes.toNat ≤ j → inodes' j = .blank)
    (hused : ∀ b, d'.Used b ↔ b = a ∨ d.Used b)
    (hholds : holds d'.block inodes' = Function.update (holds d.block inodes) p (some a)) :
    Owned d' inodes' where
  valid := by rw [hkept.sb]; exact h.valid
  super := by
    rw [hkept.sb, hkept.block 1 h.valid.one_lt_bmapstart]
    exact h.super
  blank := by rw [hkept.sb]; exact hblank
  exact := by
    rw [hkept.sb, hholds]
    exact h.exact.take hfree hempty hused

theorem Owned.ne_zero_of_free (h : Owned d inodes) (hfree : ¬d.Used a) : a ≠ 0 := by
  rintro rfl
  have hdata := h.dataStart_le_of_free hfree
  have hmap := d.sb.bmapstart_lt
  have hzero : (0 : Word).toNat = 0 := rfl
  omega

theorem Owned.take_block (h : Owned d inodes) (ha : a.toNat < d.sb.size.toNat) (hfree : ¬d.Used a)
    {p : Place} {c : Word} (hp : holds d.block inodes p = some c) :
    (d.take a).block c = d.block c :=
  Disk.take_block_of_ne h.valid ha (h.exact.ne_of_not_used hfree hp) (h.dataStart_le hp)

theorem blank_update {ip : Inode} (hblank : ∀ j, d.sb.ninodes.toNat ≤ j → inodes j = .blank)
    (hi : i < d.sb.ninodes.toNat) (j : Nat) (hj : d.sb.ninodes.toNat ≤ j) :
    Function.update inodes i ip j = .blank := by
  rw [Function.update_of_ne (by omega)]
  exact hblank j hj

/-- The block is taken and its address put into the inode. -/
theorem Owned.grown_inode (h : Owned d inodes) {ip : Inode} {s : Slot}
    (hi : i < d.sb.ninodes.toNat) (ha : a.toNat < d.sb.size.toNat) (hfree : ¬d.Used a)
    (hempty : holds d.block inodes (i, s) = none)
    (hholds : holds (d.take a).block (Function.update inodes i ip)
      = Function.update (holds (d.take a).block inodes) (i, s) (ref a)) :
    Grown d inodes (i, s) a (d.take a) (Function.update inodes i ip) := by
  have hdata := h.dataStart_le_of_free hfree
  have hzero := h.ne_zero_of_free hfree
  have hkept := Disk.kept_take h.valid ha hdata
  have hsame : ∀ p c, holds d.block inodes p = some c → (d.take a).block c = d.block c :=
    fun p c hp => h.take_block ha hfree hp
  have hupdate : holds (d.take a).block (Function.update inodes i ip)
      = Function.update (holds d.block inodes) (i, s) (some a) := by
    rw [hholds, ref_of_ne hzero, holds_congr fun j c hc => hsame _ c hc]
  refine ⟨?_, hkept, hzero, hupdate, ?_⟩
  · exact h.grow hfree hempty hkept (blank_update h.blank hi) (Disk.used_take h.valid ha hdata)
      hupdate
  · intro j off hoff
    exact byteAt_of_update hempty Disk.take_block_self hupdate (fun p c _ hp => hsame p c hp) hoff

theorem Owned.grown_direct (h : Owned d inodes) (hi : i < d.sb.ninodes.toNat) {k : Fin NDIRECT}
    (ha : a.toNat < d.sb.size.toNat) (hfree : ¬d.Used a)
    (hempty : holds d.block inodes (i, .direct k) = none) :
    Grown d inodes (i, .direct k) a (d.take a)
      (Function.update inodes i ((inodes i).setAddr k.castSucc a)) :=
  h.grown_inode hi ha hfree hempty (holds_setDirect _ inodes i k a)

theorem Owned.grown_table (h : Owned d inodes) (hi : i < d.sb.ninodes.toNat)
    (ha : a.toNat < d.sb.size.toNat) (hfree : ¬d.Used a)
    (hempty : holds d.block inodes (i, .table) = none) :
    Grown d inodes (i, .table) a (d.take a)
      (Function.update inodes i ((inodes i).setAddr (Fin.last NDIRECT) a)) :=
  h.grown_inode hi ha hfree hempty (holds_setTable hempty Disk.take_block_self)

/-- The block is taken and its address put into the block of addresses. -/
theorem Owned.grown_entry (h : Owned d inodes) {j : Fin NINDIRECT} {t : Word}
    (ha : a.toNat < d.sb.size.toNat) (hfree : ¬d.Used a)
    (htable : holds d.block inodes (i, .table) = some t)
    (hempty : holds d.block inodes (i, .entry j) = none) :
    Grown d inodes (i, .entry j) a
      ((d.take a).put t (((d.take a).block t).setWord j a)) inodes := by
  have hdata := h.dataStart_le_of_free hfree
  have hzero := h.ne_zero_of_free hfree
  have hsame : ∀ p c, holds d.block inodes p = some c → (d.take a).block c = d.block c :=
    fun p c hp => h.take_block ha hfree hp
  have hta : t ≠ a := h.exact.ne_of_not_used hfree htable
  have htdata : (d.take a).sb.dataStart ≤ t.toNat := h.dataStart_le htable
  have hsingle : ∀ m, holds (d.take a).block inodes (m, .table) = some t → m = i :=
    fun m hm => congrArg Prod.fst (h.exact.single (m, .table) (i, .table) t hm htable)
  have hupdate : holds ((d.take a).put t (((d.take a).block t).setWord j a)).block inodes
      = Function.update (holds d.block inodes) (i, .entry j) (some a) := by
    refine (holds_setEntry (d.take a).block j a htable hsingle).trans ?_
    rw [ref_of_ne hzero, holds_congr fun m c hc => hsame _ c hc]
  have hkept : d.Kept ((d.take a).put t (((d.take a).block t).setWord j a)) :=
    (Disk.kept_take h.valid ha hdata).trans
      (.put (d := d.take a) (d.sb.bmapstart_lt.le.trans htdata) _)
  refine ⟨?_, hkept, hzero, hupdate, ?_⟩
  · refine h.grow hfree hempty hkept h.blank (fun b => ?_) hupdate
    rw [Disk.used_put_data (d := d.take a) _ h.valid htdata, Disk.used_take h.valid ha hdata]
  · intro m off hoff
    refine byteAt_of_update hempty ?_ hupdate ?_ hoff
    · rw [Disk.put_block_of_ne _ _ hta.symm, Disk.take_block_self]
    · intro p c hp hc
      have hct : c ≠ t := by
        rintro rfl
        exact hp (congrArg Prod.snd (h.exact.single p (i, .table) c hc htable))
      rw [Disk.put_block_of_ne _ _ hct, hsame p c hc]

end Grow

end Acos.Storage.Fs
