import Acos.Storage.FileTruncate

/-!
# Files at rest

Between two operations the inodes on the disk are those in memory, and the disk stands for a store
of files: an inode with a type is a file whose contents are its bytes up to its size. Each function
of the inode layer does to the store what its name says, and keeps the disk consistent.
-/

namespace Acos.Storage.Fs

open ByteMemory Outcome

structure File where
  type : BitVec 16
  major : BitVec 16
  minor : BitVec 16
  nlink : BitVec 16
  data : List Byte
  deriving DecidableEq

/-- Nothing is read from an offset behind the end. -/
def File.read (f : File) (off n : Nat) : Option (List Byte) :=
  if f.data.length < off ∨ 2 ^ 32 ≤ off + n then none else some ((f.data.drop off).take n)

/-- A write may begin at the end of the file but not behind it. -/
def File.write (f : File) (off : Nat) (src : List Byte) : Option File :=
  if f.data.length < off ∨ MAXFILE * BSIZE < off + src.length then none
  else some { f with data := f.data.take off ++ src ++ f.data.drop (off + src.length) }

namespace Disk

/-- The inodes of the disk, those behind the last of them being blank. -/
def table (d : Disk) (i : Nat) : Inode := if i < d.sb.ninodes.toNat then d.dinode i else .blank

def contents (d : Disk) (i : Nat) : List Byte :=
  (List.range (d.table i).size.toNat).map (byteAt d.block d.table i)

/-- The store of files that the disk stands for. -/
def file (d : Disk) (i : Nat) : Option File :=
  if (d.table i).type = 0 then none
  else some
    { type := (d.table i).type
      major := (d.table i).major
      minor := (d.table i).minor
      nlink := (d.table i).nlink
      data := d.contents i }

def sizes (d : Disk) (i : Nat) : Nat := (d.table i).size.toNat

/-- The disk between two operations. -/
structure Consistent (d : Disk) : Prop where
  sound : Sound d d.table d.sizes
  free : ∀ i, (d.table i).type = 0 → (d.table i).size = 0

@[simp]
theorem length_contents (d : Disk) (i : Nat) : (d.contents i).length = (d.table i).size.toNat := by
  simp [contents]

theorem table_of_lt {d : Disk} {i : Nat} (hi : i < d.sb.ninodes.toNat) : d.table i = d.dinode i :=
  if_pos hi

theorem lt_of_type {d : Disk} {i : Nat} (htype : (d.table i).type ≠ 0) :
    i < d.sb.ninodes.toNat := by
  by_contra hi
  rw [table, if_neg hi] at htype
  exact htype rfl

theorem type_ne_of_file {d : Disk} {i : Nat} {f : File} (hf : d.file i = some f) :
    (d.table i).type ≠ 0 := by
  intro hzero
  rw [file, if_pos hzero] at hf
  cases hf

theorem lt_of_file {d : Disk} {i : Nat} {f : File} (hf : d.file i = some f) :
    i < d.sb.ninodes.toNat := lt_of_type (type_ne_of_file hf)

theorem data_of_file {d : Disk} {i : Nat} {f : File} (hf : d.file i = some f) :
    f.data = d.contents i := by
  rw [file, if_neg (type_ne_of_file hf)] at hf
  cases hf
  rfl

theorem table_setDinode {d : Disk} (hvalid : d.sb.Valid) {i : Nat} (hi : i < d.sb.ninodes.toNat)
    (ip : Inode) : (d.setDinode i ip).table = Function.update d.table i ip := by
  funext j
  by_cases hj : j < d.sb.ninodes.toNat
  · have hslot : j % 8 < 8 := Nat.mod_lt j (by decide)
    have hslot' : i % 8 < 8 := Nat.mod_lt i (by decide)
    rw [table_of_lt (d := d.setDinode i ip) hj, dinode, setDinode, put_sb]
    by_cases hblock : d.sb.IBLOCK j = d.sb.IBLOCK i
    · have hdiv := hvalid.IBLOCK_inj hj hi hblock
      rw [hblock, put_block_self]
      refine (Inode.decode_encode ip _ hslot' hslot).trans ?_
      by_cases hji : j = i
      · rw [if_pos (by rw [hji]), hji, Function.update_self]
      · rw [if_neg (by omega), Function.update_of_ne hji, table_of_lt hj, dinode, hblock]
        rfl
    · have hji : j ≠ i := fun heq => hblock (by rw [heq])
      rw [put_block_of_ne _ _ hblock, Function.update_of_ne hji, table_of_lt hj, dinode]
  · have hji : j ≠ i := by omega
    rw [Function.update_of_ne hji, table, table, if_neg hj]
    exact if_neg hj

theorem Kept.table {d d' : Disk} (h : Kept d d') (hvalid : d.sb.Valid) : d'.table = d.table := by
  funext i
  rw [Disk.table, Disk.table, h.sb]
  split
  · rename_i hi
    exact h.dinode hvalid hi
  · rfl

/-- Only blocks before the map differ, and not the super block. -/
structure DataKept (d d' : Disk) : Prop where
  sb : d'.sb = d.sb
  super : d'.block 1 = d.block 1
  block : ∀ c : Word, d.sb.bmapstart.toNat ≤ c.toNat → d'.block c = d.block c

theorem DataKept.refl (d : Disk) : DataKept d d := ⟨rfl, rfl, fun _ _ => rfl⟩

theorem dataKept_setDinode {d : Disk} (hvalid : d.sb.Valid) {i : Nat}
    (hi : i < d.sb.ninodes.toNat) (ip : Inode) : DataKept d (d.setDinode i ip) := by
  have hlt := hvalid.IBLOCK_lt hi
  have hone := hvalid.one_lt_IBLOCK hi
  refine ⟨rfl, put_block_of_ne d _ ?_, fun c hc => put_block_of_ne d _ ?_⟩
  · intro heq
    rw [← heq] at hone
    exact absurd hone (by decide)
  · rintro rfl
    omega

end Disk

/-! ### Inodes that differ in other fields than the addresses -/

theorem holds_congr_inodes {block : Word → Data} {inodes inodes' : Nat → Inode}
    (haddrs : ∀ j, (inodes' j).addrs = (inodes j).addrs) :
    holds block inodes' = holds block inodes := by
  funext ⟨j, s⟩
  cases s <;> simp only [holds, Slot.addr, haddrs]

theorem byteAt_congr {block block' : Word → Data} {inodes inodes' : Nat → Inode} {i off : Nat}
    (hholds : holds block' inodes' = holds block inodes)
    (hblock : ∀ p c, holds block inodes p = some c → block' c = block c) :
    byteAt block' inodes' i off = byteAt block inodes i off := by
  unfold byteAt
  rw [hholds]
  cases hc : holds block inodes (i, .ofBlock (off / 512)) with
  | none => rfl
  | some c =>
      show block' c _ = block c _
      rw [hblock _ c hc]

section DataKept

variable {d d' : Disk} {inodes inodes' : Nat → Inode} {extent : Nat → Nat}

theorem Disk.DataKept.holds_eq (hkept : d.DataKept d') (h : Owned d inodes)
    (haddrs : ∀ j, (inodes' j).addrs = (inodes j).addrs) :
    holds d'.block inodes' = holds d.block inodes := by
  rw [holds_congr_inodes haddrs]
  refine holds_congr fun j c hc => hkept.block c ?_
  exact d.sb.bmapstart_lt.le.trans (h.dataStart_le hc)

theorem Disk.DataKept.byteAt_eq (hkept : d.DataKept d') (h : Owned d inodes)
    (haddrs : ∀ j, (inodes' j).addrs = (inodes j).addrs) (i off : Nat) :
    byteAt d'.block inodes' i off = byteAt d.block inodes i off :=
  byteAt_congr (hkept.holds_eq h haddrs) fun _ c hc =>
    hkept.block c (d.sb.bmapstart_lt.le.trans (h.dataStart_le hc))

theorem Sound.of_dataKept (h : Sound d inodes extent) (hkept : d.DataKept d')
    (haddrs : ∀ j, (inodes' j).addrs = (inodes j).addrs)
    (hblank : ∀ j, d.sb.ninodes.toNat ≤ j → inodes' j = .blank) : Sound d' inodes' extent := by
  have hholds := hkept.holds_eq h.toOwned haddrs
  have hused : d'.Used = d.Used := by
    funext b
    refine propext ?_
    rw [Disk.Used, Disk.Used, hkept.sb]
    refine and_congr_right fun hb => ?_
    rw [Disk.used, Disk.used, hkept.sb, hkept.block _ (h.valid.le_BBLOCK hb)]
  constructor
  · refine ⟨by rw [hkept.sb]; exact h.valid, ?_, by rw [hkept.sb]; exact hblank, ?_⟩
    · rw [hkept.super, hkept.sb]
      exact h.super
    · rw [hkept.sb, hholds, hused]
      exact h.exact
  · rw [hholds]
    exact h.mapped
  · exact h.extent_le

end DataKept

/-! ### The operations on one file -/

section Operations

variable {d : Disk} {i : Nat} {f : File}

/-- A file is given by its inode and its bytes. -/
theorem file_congr {d' : Disk} (htable : d'.table i = d.table i)
    (hbytes : ∀ off, off < (d.table i).size.toNat →
      byteAt d'.block d'.table i off = byteAt d.block d.table i off) : d'.file i = d.file i := by
  have hcontents : d'.contents i = d.contents i := by
    rw [Disk.contents, Disk.contents, htable]
    exact List.map_congr_left fun off hoff => hbytes off (List.mem_range.mp hoff)
  rw [Disk.file, Disk.file, htable, hcontents]

theorem toNat_add_lt {off n : Word} (hoff : ¬off + n < off) : off.toNat + n.toNat < 2 ^ 32 := by
  have hoff' := off.isLt
  have hn := n.isLt
  rw [BitVec.lt_def, BitVec.toNat_add] at hoff
  omega

theorem readi_eq (h : d.Consistent) (hf : d.file i = some f) (off n : Word) :
    readi (d.table i) off n d = .ok (f.read off.toNat n.toNat, d.table i) d := by
  have hlen : f.data.length = (d.table i).size.toNat := by
    rw [Disk.data_of_file hf, Disk.length_contents]
  rw [readi]
  by_cases hfail : off > (d.table i).size ∨ off + n < off
  · have hread : f.read off.toNat n.toNat = none := by
      refine if_pos ?_
      rw [hlen]
      rcases hfail with hgt | hwrap
      · exact .inl hgt
      · refine .inr ?_
        have hoff := off.isLt
        have hn := n.isLt
        rw [BitVec.lt_def, BitVec.toNat_add] at hwrap
        omega
    rw [if_pos hfail, hread]
    rfl
  · have hsum := toNat_add_lt fun hwrap => hfail (.inr hwrap)
    have hoff : off.toNat ≤ (d.table i).size.toNat := by
      have hle := fun hgt => hfail (.inl hgt)
      exact Nat.le_of_not_lt hle
    obtain ⟨m, hm⟩ : ∃ m : Word, m = if off + n > (d.table i).size then (d.table i).size - off
      else n := ⟨_, rfl⟩
    have hadd : (off + n).toNat = off.toNat + n.toNat := by
      rw [BitVec.toNat_add, Nat.mod_eq_of_lt hsum]
    have hmin : m.toNat = min n.toNat ((d.table i).size.toNat - off.toNat) := by
      rw [hm]
      split
      · rename_i hgt
        have hgt' : (d.table i).size.toNat < off.toNat + n.toNat := by
          rw [← hadd]
          exact hgt
        rw [BitVec.toNat_sub_of_le hoff]
        omega
      · rename_i hle
        have hle' : off.toNat + n.toNat ≤ (d.table i).size.toNat := by
          rw [← hadd]
          exact Nat.le_of_not_lt hle
        omega
    have hrun : readBlocks m.toNat (d.table i) off.toNat m.toNat d
        = .ok ((List.range m.toNat).map fun k => byteAt d.block d.table i (off.toNat + k),
            d.table i) d :=
      readBlocks_eq h.sound le_rfl (show off.toNat + m.toNat ≤ (d.table i).size.toNat by omega)
    rw [if_neg hfail]
    simp only [← hm]
    rw [bind_of_ok hrun, File.read, hlen, if_neg (by omega), Disk.data_of_file hf]
    have hbytes : ((d.contents i).drop off.toNat).take n.toNat
        = (List.range m.toNat).map fun k => byteAt d.block d.table i (off.toNat + k) := by
      apply List.ext_getElem
      · simp [hmin]
      · intro k hk hk'
        simp [Disk.contents]
    rw [hbytes]
    rfl

/-- What an operation does that leaves the inode `ip` and the file `f`. -/
structure Stored (d : Disk) (i : Nat) (ip : Inode) (f : Option File) (d' : Disk) : Prop where
  consistent : d'.Consistent
  sb : d'.sb = d.sb
  table : d'.table = Function.update d.table i ip
  file : d'.file = Function.update d.file i f

theorem Stored.refl (h : d.Consistent) : Stored d i (d.table i) (d.file i) d where
  consistent := h
  sb := rfl
  table := (Function.update_eq_self i d.table).symm
  file := (Function.update_eq_self i d.file).symm

/-- The bytes of a file after a write. -/
theorem map_range_write {old new : Nat → Byte} {size off : Nat} {src : List Byte}
    (hoff : off ≤ size)
    (hnew : ∀ x, x < max size (off + src.length) →
      new x = if off ≤ x ∧ x < off + src.length then src.getD (x - off) 0 else old x) :
    (List.range (max size (off + src.length))).map new
      = ((List.range size).map old).take off ++ src
        ++ ((List.range size).map old).drop (off + src.length) := by
  apply List.ext_getElem
  · simp
    omega
  · intro x hx hx'
    have hx₁ : x < max size (off + src.length) := by simpa using hx
    rw [List.getElem_map, List.getElem_range, hnew x hx₁]
    by_cases hlow : x < off
    · rw [if_neg (by omega), List.getElem_append_left (by simp; omega),
        List.getElem_append_left (by simp; omega)]
      simp
    · by_cases hmid : x < off + src.length
      · rw [if_pos (by omega), List.getElem_append_left (by simp; omega),
          List.getElem_append_right (by simp; omega)]
        have hlen : (((List.range size).map old).take off).length = off := by simp; omega
        simp only [hlen]
        rw [List.getD_eq_getElem?_getD, List.getElem?_eq_getElem (by omega)]
        rfl
      · rw [if_neg (by omega), List.getElem_append_right (by simp; omega)]
        have hlen : (((List.range size).map old).take off ++ src).length = off + src.length := by
          simp
          omega
        simp only [hlen, List.getElem_drop, List.getElem_map, List.getElem_range]
        congr 1
        omega

theorem file_eq (htype : (d.table i).type ≠ 0) :
    d.file i = some ⟨(d.table i).type, (d.table i).major, (d.table i).minor, (d.table i).nlink,
      d.contents i⟩ := if_neg htype

theorem eq_of_file (hf : d.file i = some f) :
    f = ⟨(d.table i).type, (d.table i).major, (d.table i).minor, (d.table i).nlink,
      d.contents i⟩ := by
  rw [file_eq (Disk.type_ne_of_file hf)] at hf
  exact (Option.some.inj hf).symm

theorem Disk.Consistent.size_le (h : d.Consistent) (i : Nat) :
    (d.table i).size.toNat ≤ MAXFILE * 512 := h.sound.extent_le i

theorem Written.stored (h : d.Consistent) (hf : d.file i = some f) {off : Nat} {src : List Byte}
    {ip ip' : Inode} {d₁ d₂ : Disk} (hoff : off ≤ (d.table i).size.toNat)
    (hend : off + src.length ≤ MAXFILE * BSIZE)
    (hw : Written d d.table d.sizes i off src ip d₁)
    (hfields : ip' = { d.table i with size := ip'.size, addrs := ip.addrs })
    (hsize : ip'.size.toNat = max (d.table i).size.toNat (off + src.length))
    (htable : d₂.table = Function.update d.table i ip') (hkept : d₁.DataKept d₂) :
    Stored d i ip'
      (some { f with data := f.data.take off ++ src ++ f.data.drop (off + src.length) }) d₂ := by
  have htype := Disk.type_ne_of_file hf
  have hi := Disk.lt_of_type htype
  have hself : d₂.table i = ip' := by rw [htable, Function.update_self]
  have haddrs : ∀ j, (d₂.table j).addrs = (Function.update d.table i ip j).addrs := by
    intro j
    rw [htable]
    by_cases hj : j = i
    · subst hj
      rw [Function.update_self, Function.update_self, hfields]
    · rw [Function.update_of_ne hj, Function.update_of_ne hj]
  have hsizes : d₂.sizes = Function.update d.sizes i (max (d.sizes i) (off + src.length)) := by
    funext j
    rw [Disk.sizes, htable]
    by_cases hj : j = i
    · subst hj
      rw [Function.update_self, Function.update_self]
      exact hsize
    · rw [Function.update_of_ne hj, Function.update_of_ne hj]
      rfl
  have hblank : ∀ j, d₁.sb.ninodes.toNat ≤ j → d₂.table j = .blank := by
    intro j hj
    rw [hw.kept.sb] at hj
    rw [htable, Function.update_of_ne (by omega)]
    exact h.sound.blank j hj
  have hbytes : ∀ j x, x < MAXFILE * 512 → byteAt d₂.block d₂.table j x
      = if j = i ∧ off ≤ x ∧ x < off + src.length then src.getD (x - off) 0
        else byteAt d.block d.table j x := fun j x hx =>
    (hkept.byteAt_eq hw.sound.toOwned haddrs j x).trans (hw.byteAt_eq j x hx)
  refine ⟨⟨?_, ?_⟩, hkept.sb.trans hw.kept.sb, htable, ?_⟩
  · rw [hsizes]
    exact hw.sound.of_dataKept hkept haddrs hblank
  · intro j hzero
    by_cases hj : j = i
    · subst hj
      rw [hself, hfields] at hzero
      exact absurd hzero htype
    · rw [htable, Function.update_of_ne hj] at hzero ⊢
      exact h.free j hzero
  · funext j
    by_cases hj : j = i
    · subst hj
      have htype' : (d₂.table j).type ≠ 0 := by
        rw [hself, hfields]
        exact htype
      have hcontents : d₂.contents j
          = f.data.take off ++ src ++ f.data.drop (off + src.length) := by
        rw [Disk.contents, hself, hsize, Disk.data_of_file hf, Disk.contents]
        refine map_range_write hoff fun x hx => ?_
        have hsize' : (d.table j).size.toNat ≤ 140 * 512 := h.size_le j
        have hend' : off + src.length ≤ 140 * 512 := hend
        rw [hbytes j x (show x < 140 * 512 by omega)]
        simp
      rw [Function.update_self, file_eq htype', hcontents, hself, hfields]
      rw [eq_of_file hf]
    · rw [Function.update_of_ne hj]
      refine file_congr (by rw [htable, Function.update_of_ne hj]) fun x hx => ?_
      rw [hbytes j x (hx.trans_le (h.size_le j)), if_neg fun hin => hj hin.1]

theorem toNat_ofNat_length {src : List Byte} (hlen : src.length < 2 ^ 32) :
    (BitVec.ofNat 32 src.length).toNat = src.length := by
  rw [BitVec.toNat_ofNat, Nat.mod_eq_of_lt hlen]

theorem writei_post (h : d.Consistent) (hf : d.file i = some f) (off : Word) {src : List Byte}
    (hlen : src.length < 2 ^ 32) :
    Post (writei i (d.table i) off src d)
      (fun r d' => r.1 = (f.write off.toNat src).map (fun _ => BitVec.ofNat 32 src.length) ∧
        Stored d i r.2 (some ((f.write off.toNat src).getD f)) d') NoSpace := by
  have hn := toNat_ofNat_length hlen
  have hi := Disk.lt_of_file hf
  have hsize : f.data.length = (d.table i).size.toNat := by
    rw [Disk.data_of_file hf, Disk.length_contents]
  have hstay : f.write off.toNat src = none →
      (none : Option Word) = (f.write off.toNat src).map (fun _ => BitVec.ofNat 32 src.length) ∧
        Stored d i (d.table i) (some ((f.write off.toNat src).getD f)) d := by
    intro hwrite
    rw [hwrite]
    exact ⟨rfl, hf ▸ Stored.refl h⟩
  rw [writei]
  by_cases hfail : off > (d.table i).size ∨ off + BitVec.ofNat 32 src.length < off
  · rw [if_pos hfail]
    refine hstay (if_pos ?_)
    rw [hsize]
    rcases hfail with hgt | hwrap
    · exact .inl hgt
    · refine .inr ?_
      have hoff := off.isLt
      rw [BitVec.lt_def, BitVec.toNat_add, hn] at hwrap
      show 140 * 512 < _
      omega
  · have hsum := toNat_add_lt fun hwrap => hfail (.inr hwrap)
    rw [hn] at hsum
    have hadd : (off + BitVec.ofNat 32 src.length).toNat = off.toNat + src.length := by
      rw [BitVec.toNat_add, hn, Nat.mod_eq_of_lt hsum]
    have hoff : off.toNat ≤ (d.table i).size.toNat :=
      Nat.le_of_not_lt fun hgt => hfail (.inl hgt)
    rw [if_neg hfail]
    by_cases hlarge : off + BitVec.ofNat 32 src.length > BitVec.ofNat 32 (MAXFILE * BSIZE)
    · rw [if_pos hlarge]
      refine hstay (if_pos (.inr ?_))
      have hlarge' : (BitVec.ofNat 32 (MAXFILE * BSIZE)).toNat
          < (off + BitVec.ofNat 32 src.length).toNat := hlarge
      rwa [hadd] at hlarge'
    · have hend : off.toNat + src.length ≤ MAXFILE * BSIZE := by
        have hle : (off + BitVec.ofNat 32 src.length).toNat
            ≤ (BitVec.ofNat 32 (MAXFILE * BSIZE)).toNat := Nat.le_of_not_lt hlarge
        rwa [hadd] at hle
      have hwrite : f.write off.toNat src
          = some { f with data := f.data.take off.toNat ++ src
              ++ f.data.drop (off.toNat + src.length) } := by
        refine if_neg ?_
        rw [hsize]
        omega
      rw [if_neg hlarge, post_bind, hwrite]
      refine (writeBlocks_post h.sound hi le_rfl hoff hend).imp ?_
      intro ip d₁ hw
      have hsz : ip.size = (d.table i).size := by rw [hw.fields]
      rw [post_ite]
      constructor
      · rintro ⟨-, hgrow⟩
        rw [hsz] at hgrow
        have hgrow' : (d.table i).size.toNat < off.toNat + src.length := by
          rw [← hadd]
          exact hgrow
        have hi₁ : i < d₁.sb.ninodes.toNat := by rwa [hw.kept.sb]
        have hvalid := hw.sound.valid
        refine ⟨rfl, hw.stored h hf hoff hend ?_ ?_ ?_ (Disk.dataKept_setDinode hvalid hi₁ _)⟩
        · rw [hw.fields]
        · rw [hadd]
          omega
        · rw [Disk.table_setDinode hvalid hi₁, hw.kept.table h.sound.valid]
      · intro hkeep
        have hle : off.toNat + src.length ≤ (d.table i).size.toNat := by
          by_contra hgrow
          refine hkeep ⟨?_, ?_⟩
          · rw [gt_iff_lt, BitVec.lt_def, hn]
            show 0 < src.length
            omega
          · rw [hsz, gt_iff_lt, BitVec.lt_def, hadd]
            omega
        have hsame := hw.same hle
        refine ⟨rfl, hw.stored h hf hoff hend ?_ ?_ ?_ (.refl d₁)⟩
        · rw [hsame]
        · rw [hsame]
          exact (Nat.max_eq_left hle).symm
        · rw [hw.kept.table h.sound.valid, hsame, Function.update_eq_self]

/-- An inode with the same bytes is written to the disk. -/
theorem Disk.Consistent.setDinode (h : d.Consistent) (hi : i < d.sb.ninodes.toNat) {ip : Inode}
    (haddrs : ip.addrs = (d.table i).addrs) (hsize : ip.size = (d.table i).size)
    (hfree : ip.type = 0 → ip.size = 0) :
    Stored d i ip (if ip.type = 0 then none
      else some ⟨ip.type, ip.major, ip.minor, ip.nlink, d.contents i⟩) (d.setDinode i ip) := by
  have hvalid := h.sound.valid
  have htable := Disk.table_setDinode hvalid hi ip
  have hself : (d.setDinode i ip).table i = ip := by rw [htable, Function.update_self]
  have hkept := Disk.dataKept_setDinode hvalid hi ip
  have haddrs' : ∀ j, ((d.setDinode i ip).table j).addrs = (d.table j).addrs := by
    intro j
    rw [htable]
    by_cases hj : j = i
    · rw [hj, Function.update_self, haddrs]
    · rw [Function.update_of_ne hj]
  have hsizes : (d.setDinode i ip).sizes = d.sizes := by
    funext j
    rw [Disk.sizes, htable]
    by_cases hj : j = i
    · rw [hj, Function.update_self, hsize]
      rfl
    · rw [Function.update_of_ne hj]
      rfl
  have hbytes := hkept.byteAt_eq h.sound.toOwned haddrs'
  have hblank : ∀ j, d.sb.ninodes.toNat ≤ j → (d.setDinode i ip).table j = .blank := by
    intro j hj
    rw [htable, Function.update_of_ne (by omega)]
    exact h.sound.blank j hj
  refine ⟨⟨?_, ?_⟩, rfl, htable, ?_⟩
  · rw [hsizes]
    exact h.sound.of_dataKept hkept haddrs' hblank
  · intro j
    rw [htable]
    by_cases hj : j = i
    · rw [hj, Function.update_self]
      exact hfree
    · rw [Function.update_of_ne hj]
      exact h.free j
  · funext j
    by_cases hj : j = i
    · subst hj
      have hcontents : (d.setDinode j ip).contents j = d.contents j := by
        rw [Disk.contents, Disk.contents, hself, hsize]
        exact List.map_congr_left fun x _ => hbytes j x
      rw [Function.update_self, Disk.file, hself, hcontents]
    · rw [Function.update_of_ne hj]
      exact file_congr (by rw [htable, Function.update_of_ne hj]) fun x _ => hbytes j x

theorem Stored.trans {ip ip' : Inode} {g g' : Option File} {d' d'' : Disk}
    (h : Stored d i ip g d') (h' : Stored d' i ip' g' d'') : Stored d i ip' g' d'' where
  consistent := h'.consistent
  sb := h'.sb.trans h.sb
  table := by rw [h'.table, h.table, Function.update_idem]
  file := by rw [h'.file, h.file, Function.update_idem]

theorem itrunc_stored (h : d.Consistent) (hf : d.file i = some f) :
    ∃ d', itrunc i (d.table i) d = .ok (d.table i).truncated d' ∧
      Stored d i (d.table i).truncated (some { f with data := [] }) d' := by
  have htype := Disk.type_ne_of_file hf
  have hi := Disk.lt_of_type htype
  obtain ⟨d₁, hrun, honly, haccount⟩ := itrunc_ok h.sound.toOwned i
  refine ⟨_, hrun, ?_⟩
  have hvalid := haccount.valid
  have hi₁ : i < d₁.sb.ninodes.toNat := by rwa [honly.sb]
  have htable : (d₁.setDinode i (d.table i).truncated).table
      = Function.update d.table i (d.table i).truncated := by
    rw [Disk.table_setDinode hvalid hi₁, honly.kept.table h.sound.valid]
  have hself : (d₁.setDinode i (d.table i).truncated).table i = (d.table i).truncated := by
    rw [htable, Function.update_self]
  have hkept := Disk.dataKept_setDinode hvalid hi₁ (d.table i).truncated
  have hsound := h.sound.truncated hi honly haccount
  have hsizes : (d₁.setDinode i (d.table i).truncated).sizes = Function.update d.sizes i 0 := by
    funext j
    rw [Disk.sizes, htable]
    by_cases hj : j = i
    · rw [hj, Function.update_self, Function.update_self]
      rfl
    · rw [Function.update_of_ne hj, Function.update_of_ne hj]
      rfl
  refine ⟨⟨?_, ?_⟩, honly.sb, htable, ?_⟩
  · rw [hsizes, htable]
    exact hsound.of_dataKept hkept (fun _ => rfl) hsound.blank
  · intro j
    rw [htable]
    by_cases hj : j = i
    · rw [hj, Function.update_self]
      exact fun _ => rfl
    · rw [Function.update_of_ne hj]
      exact h.free j
  · funext j
    by_cases hj : j = i
    · subst hj
      have htype' : ((d₁.setDinode j (d.table j).truncated).table j).type ≠ 0 := by
        rw [hself]
        exact htype
      have hcontents : (d₁.setDinode j (d.table j).truncated).contents j = [] := by
        rw [Disk.contents, hself]
        rfl
      rw [Function.update_self, file_eq htype', hcontents, hself, eq_of_file hf]
      rfl
    · rw [Function.update_of_ne hj]
      refine file_congr (by rw [htable, Function.update_of_ne hj]) fun x _ => ?_
      rw [htable, hkept.byteAt_eq hsound.toOwned fun _ => rfl]
      unfold byteAt
      rw [honly.holds_truncated h.sound.toOwned i]
      simp only [if_neg hj]
      cases hc : holds d.block d.table (j, .ofBlock (x / 512)) with
      | none => rfl
      | some c =>
          show d₁.block c _ = d.block c _
          rw [honly.block_of_holds h.sound.toOwned hc]

/-- The last reference to a file without links is dropped. -/
theorem ifree_stored (h : d.Consistent) (hf : d.file i = some f) :
    ∃ d', ifree i (d.table i) d = .ok { (d.table i).truncated with type := 0 } d' ∧
      Stored d i { (d.table i).truncated with type := 0 } none d' := by
  obtain ⟨d₁, hrun, hstored⟩ := itrunc_stored h hf
  have hself : d₁.table i = (d.table i).truncated := by
    rw [hstored.table, Function.update_self]
  have hi : i < d₁.sb.ninodes.toNat := by
    rw [hstored.sb]
    exact Disk.lt_of_file hf
  refine ⟨d₁.setDinode i { (d.table i).truncated with type := 0 }, ?_, ?_⟩
  · rw [ifree, bind_of_ok hrun]
    rfl
  · have hfree : Stored d₁ i { (d.table i).truncated with type := 0 } none
        (d₁.setDinode i { (d.table i).truncated with type := 0 }) :=
      hstored.consistent.setDinode hi (by rw [hself]) (by rw [hself]) fun _ => rfl
    exact hstored.trans hfree

/-- No inode is left for a new file. -/
def Disk.NoInode (d : Disk) : Prop := ∀ i, 1 ≤ i → i < d.sb.ninodes.toNat → d.file i ≠ none

theorem ialloc_post (h : d.Consistent) {type : BitVec 16} (htype : type ≠ 0) :
    Post (ialloc type d)
      (fun i d' => 1 ≤ i ∧ d.file i = none ∧
        Stored d i { Inode.blank with type := type } (some ⟨type, 0, 0, 0, []⟩) d')
      (fun e d' => e = .ialloc ∧ d' = d ∧ d.NoInode) := by
  rw [ialloc, post_bind, post_get]
  cases hfind : (List.range' 1 (d.sb.ninodes.toNat - 1)).find?
      fun inum => (d.dinode inum).type = 0 with
  | none =>
      refine ⟨rfl, rfl, fun i hi hlt => ?_⟩
      have hmem : i ∈ List.range' 1 (d.sb.ninodes.toNat - 1) := List.mem_range'_1.mpr (by omega)
      have hused := List.find?_eq_none.mp hfind i hmem
      rw [Disk.file, Disk.table_of_lt hlt, if_neg (by simpa using hused)]
      exact Option.some_ne_none _
  | some i =>
      have hmem := List.mem_range'_1.mp (List.mem_of_find?_eq_some hfind)
      have hlt : i < d.sb.ninodes.toNat := by omega
      have hfound := List.find?_some hfind
      have hzero : (d.table i).type = 0 := by
        rw [Disk.table_of_lt hlt]
        simpa using hfound
      have hsize := h.free i hzero
      have hnone : ∀ s, holds d.block d.table (i, s) = none := fun s =>
        h.sound.holds_none (by rw [Disk.sizes, hsize]; exact Nat.zero_le _)
      have haddrs : ({ Inode.blank with type := type } : Inode).addrs = (d.table i).addrs := by
        funext m
        refine Fin.lastCases ?_ (fun k => ?_) m
        · exact (ref_eq_none.mp (hnone .table)).symm
        · exact (ref_eq_none.mp (hnone (.direct k))).symm
      have hstored := h.setDinode hlt haddrs (by rw [hsize]; rfl) fun hz => absurd hz htype
      have hcontents : d.contents i = [] := by
        rw [Disk.contents, hsize]
        rfl
      rw [if_neg htype, hcontents] at hstored
      exact ⟨hmem.1, if_pos hzero, hstored⟩

end Operations

end Acos.Storage.Fs
