import Acos.Storage.BlockMap

/-!
# Reading and writing files

The places of an inode that hold blocks are exactly those that its bytes need, as `writei` never
leaves a gap. A write changes the bytes it is given for and no byte of any other file, and reading
returns the bytes. Only a disk without a free block stops a write.
-/

namespace Acos.Storage.Fs

open ByteMemory Outcome

/-- The places that hold a block are those needed for the first bytes of the files, as many as
`extent` tells. -/
structure Sound (d : Disk) (inodes : Nat → Inode) (extent : Nat → Nat) : Prop
    extends Owned d inodes where
  mapped : ∀ i s, (holds d.block inodes (i, s)).isSome ↔ s.first < extent i
  extent_le : ∀ i, extent i ≤ MAXFILE * BSIZE

/-- The only way in which an operation stops. -/
def NoSpace (e : Panic) (d : Disk) : Prop := e = .outOfBlocks ∧ d.Full

namespace Sound

variable {d : Disk} {inodes : Nat → Inode} {extent : Nat → Nat} (h : Sound d inodes extent)
include h

theorem exists_holds {i : Nat} {s : Slot} (hs : s.first < extent i) :
    ∃ a, holds d.block inodes (i, s) = some a :=
  Option.isSome_iff_exists.mp ((h.mapped i s).mpr hs)

theorem holds_none {i : Nat} {s : Slot} (hs : extent i ≤ s.first) :
    holds d.block inodes (i, s) = none := by
  rw [← Option.not_isSome_iff_eq_none, h.mapped]
  omega

/-- An extent counts only by the blocks it reaches into. -/
theorem congr_extent {extent' : Nat → Nat}
    (hsame : ∀ i s, s.first < extent' i ↔ Slot.first s < extent i)
    (hle : ∀ i, extent' i ≤ MAXFILE * BSIZE) : Sound d inodes extent' where
  toOwned := h.toOwned
  mapped i s := (h.mapped i s).trans (hsame i s).symm
  extent_le := hle

end Sound

theorem Slot.exists_first (s : Slot) : ∃ k, s.first = 512 * k := by
  cases s with
  | direct k => exact ⟨k, rfl⟩
  | table => exact ⟨12, rfl⟩
  | entry j => exact ⟨12 + j, rfl⟩

/-- The places that one more block needs. -/
theorem Slot.first_lt_iff {s : Slot} {bn upto : Nat} (hbn : bn < MAXFILE) (hlo : 512 * bn < upto)
    (hup : upto ≤ 512 * bn + 512) :
    s.first < upto ↔ s.first < 512 * bn ∨ s = .ofBlock bn ∨ bn = 12 ∧ s = .table := by
  have hfirst := Slot.first_ofBlock hbn
  have hbn' : bn < 140 := hbn
  constructor
  · intro hs
    obtain ⟨k, hk⟩ := s.exists_first
    by_cases hlt : s.first < 512 * bn
    · exact .inl hlt
    · have heq : s.first = 512 * bn := by omega
      cases s with
      | direct l =>
          have hl : 512 * l.val = 512 * bn := heq
          have hlb : bn = l := by omega
          subst hlb
          exact .inr (.inl (ofBlock_of_lt l.isLt).symm)
      | table =>
          have hl : 512 * 12 = 512 * bn := heq
          exact .inr (.inr ⟨by omega, rfl⟩)
      | entry j =>
          have hl : 512 * (12 + j.val) = 512 * bn := heq
          have hlb : bn = 12 + j := by omega
          subst hlb
          have hge : ¬12 + j.val < NDIRECT := show ¬12 + j.val < 12 by omega
          have hval : 12 + j.val - NDIRECT = j.val := show 12 + j.val - 12 = j.val by omega
          refine .inr (.inl ?_)
          rw [ofBlock_of_le hge (by rw [hval]; exact j.isLt)]
          exact congrArg _ (Fin.ext hval.symm)
  · rintro (hs | rfl | ⟨rfl, rfl⟩)
    · omega
    · omega
    · exact hlo

/-! ### `bmap` -/

/-- What `bmap` does for a block that the bytes before `upto` need. -/
structure Mapped (d : Disk) (inodes : Nat → Inode) (extent : Nat → Nat) (i bn upto : Nat)
    (r : Word × Inode) (d' : Disk) : Prop where
  sound : Sound d' (Function.update inodes i r.2) (Function.update extent i (max (extent i) upto))
  addr : holds d'.block (Function.update inodes i r.2) (i, .ofBlock bn) = some r.1
  kept : d.Kept d'
  byteAt_eq : ∀ j off, off < MAXFILE * 512 →
    byteAt d'.block (Function.update inodes i r.2) j off = byteAt d.block inodes j off
  fields : r.2 = { inodes i with addrs := r.2.addrs }
  same : upto ≤ extent i → r.2 = inodes i

section Bmap

variable {d : Disk} {inodes : Nat → Inode} {extent : Nat → Nat} {i bn upto : Nat}

theorem Grown.isSome_iff {d' : Disk} {inodes' : Nat → Inode} {p : Place} {a : Word}
    (hgrown : Grown d inodes p a d' inodes') (q : Place) :
    (holds d'.block inodes' q).isSome ↔ (holds d.block inodes q).isSome ∨ q = p := by
  rw [hgrown.holds_eq]
  by_cases hq : q = p
  · simp [hq]
  · simp [hq]

theorem Grown.holds_self {d' : Disk} {inodes' : Nat → Inode} {p : Place} {a : Word}
    (hgrown : Grown d inodes p a d' inodes') : holds d'.block inodes' p = some a := by
  rw [hgrown.holds_eq, Function.update_self]

theorem Sound.extend (h : Sound d inodes extent) {d' : Disk} {inodes' : Nat → Inode}
    (New : Slot → Prop) (howned : Owned d' inodes')
    (hholds : ∀ j s, (holds d'.block inodes' (j, s)).isSome ↔
      (holds d.block inodes (j, s)).isSome ∨ j = i ∧ New s)
    (hnew : ∀ s : Slot, s.first < upto ↔ s.first < extent i ∨ New s)
    (hle : upto ≤ MAXFILE * BSIZE) : Sound d' inodes' (Function.update extent i upto) where
  toOwned := howned
  mapped j s := by
    rw [hholds, h.mapped]
    by_cases hj : j = i
    · subst hj
      rw [Function.update_self, hnew]
      simp
    · rw [Function.update_of_ne hj]
      simp [hj]
  extent_le j := by
    by_cases hj : j = i
    · subst hj
      rwa [Function.update_self]
    · rw [Function.update_of_ne hj]
      exact h.extent_le j

theorem balloc_noSpace {Q : Word → Disk → Prop}
    (hQ : ∀ a, a.toNat < d.sb.size.toNat → ¬d.Used a → Q a (d.take a)) :
    Post (balloc d) Q NoSpace := by
  refine balloc_post.mono ?_ ?_
  · rintro a _ ⟨ha, hfree, rfl⟩
    exact hQ a ha hfree
  · rintro e _ ⟨rfl, rfl, hfull⟩
    exact ⟨rfl, hfull⟩

theorem loadTable_post (h : Owned d inodes) (hi : i < d.sb.ninodes.toNat)
    (hempty : holds d.block inodes (i, .table) = none) :
    Post (loadTable (inodes i) d)
      (fun ip d' => ∃ t, ip = (inodes i).setAddr (Fin.last NDIRECT) t ∧
        Grown d inodes (i, .table) t d' (Function.update inodes i ip)) NoSpace := by
  have hzero : (inodes i).addrs (Fin.last NDIRECT) = 0 := ref_eq_none.mp hempty
  rw [loadTable, if_pos hzero, post_bind]
  refine balloc_noSpace fun t ht hfree => ?_
  exact ⟨t, rfl, h.grown_table hi ht hfree hempty⟩

theorem loadEntry_post (h : Owned d inodes) {j : Fin NINDIRECT} {t : Word}
    (htable : holds d.block inodes (i, .table) = some t)
    (hempty : holds d.block inodes (i, .entry j) = none) :
    Post (loadEntry t j d) (fun a d' => Grown d inodes (i, .entry j) a d' inodes) NoSpace := by
  have hzero : (d.block t).word j = 0 := by
    rw [holds_entry htable] at hempty
    exact ref_eq_none.mp hempty
  rw [loadEntry, post_bind, post_get, if_pos hzero, post_bind]
  refine balloc_noSpace fun a ha hfree => ?_
  rw [post_bind, post_modify, post_pure]
  exact h.grown_entry ha hfree htable hempty

theorem bmap_of_mapped (h : Sound d inodes extent) (hbn : bn < MAXFILE)
    (hlt : 512 * bn < extent i) :
    ∃ a, holds d.block inodes (i, .ofBlock bn) = some a ∧
      bmap (inodes i) bn d = .ok (a, inodes i) d := by
  obtain ⟨a, ha⟩ := h.exists_holds (i := i) (s := .ofBlock bn)
    (by rwa [Slot.first_ofBlock hbn])
  refine ⟨a, ha, ?_⟩
  by_cases hdirect : bn < NDIRECT
  · rw [Slot.ofBlock_of_lt hdirect] at ha
    obtain ⟨haddr, hne⟩ := ref_eq_some.mp ha
    have haddr' : (inodes i).addrs ⟨bn, Nat.lt_succ_of_lt hdirect⟩ = a := haddr
    rw [bmap, dif_pos hdirect]
    simp only [haddr', if_neg hne]
    rfl
  · have hentry := sub_lt_of_lt_maxfile hbn
    have hge : ¬bn < 12 := hdirect
    obtain ⟨t, ht⟩ := h.exists_holds (i := i) (s := .table) (show 512 * 12 < extent i by omega)
    obtain ⟨haddr, hne⟩ := ref_eq_some.mp ht
    have haddr' : (inodes i).addrs (Fin.last NDIRECT) = t := haddr
    rw [Slot.ofBlock_of_le hdirect hentry, holds_entry ht] at ha
    obtain ⟨hword, hne'⟩ := ref_eq_some.mp ha
    have hload : loadTable (inodes i) d = .ok (inodes i) d := by
      rw [loadTable, haddr', if_neg hne]
      rfl
    have hentry' : loadEntry t (bn - NDIRECT) d = .ok a d := by
      have hword' : (d.block t).word (bn - NDIRECT) = a := hword
      show (if (d.block t).word (bn - NDIRECT) = 0 then _ else _ : Op Word) d = _
      rw [hword', if_neg hne']
      rfl
    rw [bmap, dif_neg hdirect, if_pos hentry, bind_of_ok hload, haddr', bind_of_ok hentry']
    rfl

theorem bmap_grow_direct (h : Sound d inodes extent) (hi : i < d.sb.ninodes.toNat)
    (hbn : bn < NDIRECT) (hext : extent i = 512 * bn) (hlo : 512 * bn < upto)
    (hup : upto ≤ 512 * bn + 512) :
    Post (bmap (inodes i) bn d) (Mapped d inodes extent i bn upto) NoSpace := by
  have hbn' : bn < 12 := hbn
  have hmax : max (extent i) upto = upto := by omega
  have hempty : holds d.block inodes (i, .direct ⟨bn, hbn⟩) = none :=
    h.holds_none (show extent i ≤ 512 * bn by omega)
  have hzero : (inodes i).addrs ⟨bn, Nat.lt_succ_of_lt hbn⟩ = 0 := ref_eq_none.mp hempty
  rw [bmap, dif_pos hbn]
  simp only [hzero, if_true, post_bind]
  refine balloc_noSpace fun a ha hfree => ?_
  have hgrown := h.grown_direct hi ha hfree hempty
  refine ⟨?_, ?_, hgrown.kept, hgrown.byteAt_eq, rfl, fun hle => by omega⟩
  · rw [hmax]
    refine h.extend (· = .direct ⟨bn, hbn⟩) hgrown.owned ?_ ?_ ?_
    · intro j s
      exact (hgrown.isSome_iff (j, s)).trans (by simp)
    · intro s
      rw [Slot.first_lt_iff (show bn < 140 by omega) hlo hup, Slot.ofBlock_of_lt hbn, hext]
      exact or_congr_right ⟨fun hs => hs.resolve_right fun hs => by omega, .inl⟩
    · show upto ≤ 140 * 512
      omega
  · rw [Slot.ofBlock_of_lt hbn]
    exact hgrown.holds_self

theorem bmap_eq_entry (ip : Inode) (hge : ¬bn < NDIRECT) (hlt : bn - NDIRECT < NINDIRECT) :
    bmap ip bn = (do
      let ip ← loadTable ip
      let addr ← loadEntry (ip.addrs (Fin.last NDIRECT)) (bn - NDIRECT)
      return (addr, ip)) := by
  rw [bmap, dif_neg hge, if_pos hlt]

theorem bmap_grow_entry (h : Sound d inodes extent) (hi : i < d.sb.ninodes.toNat)
    (hge : ¬bn < NDIRECT) (hlt : bn - NDIRECT < NINDIRECT) (hext : extent i = 512 * bn)
    (hlo : 512 * bn < upto) (hup : upto ≤ 512 * bn + 512) :
    Post (bmap (inodes i) bn d) (Mapped d inodes extent i bn upto) NoSpace := by
  have hge' : ¬bn < 12 := hge
  have hlt' : bn - 12 < 128 := hlt
  have hbn : bn < MAXFILE := show bn < 140 by omega
  have hmax : max (extent i) upto = upto := by omega
  have hle : upto ≤ MAXFILE * BSIZE := show upto ≤ 140 * 512 by omega
  have hslot := Slot.ofBlock_of_le hge hlt
  have hempty : holds d.block inodes (i, .entry ⟨bn - NDIRECT, hlt⟩) = none := by
    rw [← hslot]
    exact h.holds_none (by rw [Slot.first_ofBlock hbn, hext])
  rw [bmap_eq_entry _ hge hlt, post_bind]
  by_cases hfirst : bn = 12
  · have hnone : holds d.block inodes (i, .table) = none :=
      h.holds_none (show extent i ≤ 512 * 12 by omega)
    refine (loadTable_post h.toOwned hi hnone).imp ?_
    rintro ip d₁ ⟨t, hip, hgrown₁⟩
    have htable := hgrown₁.holds_self
    have hempty₁ : holds d₁.block (Function.update inodes i ip) (i, .entry ⟨bn - NDIRECT, hlt⟩)
        = none := by
      rw [hgrown₁.holds_eq, Function.update_of_ne (by simp), hempty]
    have haddr : ip.addrs (Fin.last NDIRECT) = t := by
      rw [hip]
      simp [Inode.setAddr]
    rw [post_bind, haddr]
    refine (loadEntry_post hgrown₁.owned htable hempty₁).imp ?_
    intro a d₂ hgrown₂
    refine ⟨?_, ?_, hgrown₁.kept.trans hgrown₂.kept, ?_, ?_, fun hle => by omega⟩
    · rw [hmax]
      refine h.extend (fun s => s = .ofBlock bn ∨ s = .table) hgrown₂.owned ?_ ?_ hle
      · intro j s
        refine (hgrown₂.isSome_iff (j, s)).trans ?_
        rw [hgrown₁.isSome_iff, hslot]
        simp only [Prod.mk.injEq]
        tauto
      · intro s
        rw [Slot.first_lt_iff hbn hlo hup, hext]
        simp [hfirst]
    · rw [hslot]
      exact hgrown₂.holds_self
    · intro j off hoff
      exact (hgrown₂.byteAt_eq j off hoff).trans (hgrown₁.byteAt_eq j off hoff)
    · rw [hip]
      rfl
  · obtain ⟨t, htable⟩ := h.exists_holds (i := i) (s := .table) (show 512 * 12 < extent i by omega)
    obtain ⟨haddr, hne⟩ := ref_eq_some.mp htable
    have haddr' : (inodes i).addrs (Fin.last NDIRECT) = t := haddr
    rw [loadTable, haddr', if_neg hne, post_pure, post_bind, haddr']
    refine (loadEntry_post h.toOwned htable hempty).imp ?_
    intro a d' hgrown
    rw [post_pure]
    have hself : Function.update inodes i (inodes i) = inodes := Function.update_eq_self i inodes
    refine ⟨?_, ?_, hgrown.kept, ?_, rfl, fun _ => rfl⟩
    · rw [hmax, hself]
      refine h.extend (· = .ofBlock bn) hgrown.owned ?_ ?_ hle
      · intro j s
        rw [hgrown.isSome_iff, hslot]
        simp
      · intro s
        rw [Slot.first_lt_iff hbn hlo hup, hext]
        simp [hfirst]
    · rw [hself, hslot]
      exact hgrown.holds_self
    · rw [hself]
      exact hgrown.byteAt_eq

/-- The one spec of `bmap` for the next byte to be written or one before it. -/
theorem bmap_post (h : Sound d inodes extent) (hi : i < d.sb.ninodes.toNat) (hbn : bn < MAXFILE)
    (hnext : 512 * bn ≤ extent i) (hlo : 512 * bn < upto) (hup : upto ≤ 512 * bn + 512) :
    Post (bmap (inodes i) bn d) (Mapped d inodes extent i bn upto) NoSpace := by
  rcases Nat.eq_or_lt_of_le hnext with hext | hlt
  · by_cases hdirect : bn < NDIRECT
    · exact bmap_grow_direct h hi hdirect hext.symm hlo hup
    · exact bmap_grow_entry h hi hdirect (sub_lt_of_lt_maxfile hbn) hext.symm hlo hup
  · obtain ⟨a, ha, hrun⟩ := bmap_of_mapped h hbn hlt
    have hself : Function.update inodes i (inodes i) = inodes := Function.update_eq_self i inodes
    rw [hrun]
    refine ⟨?_, ?_, .refl d, ?_, rfl, fun _ => rfl⟩
    · rw [hself]
      have hbn' : bn < 140 := hbn
      have hext := h.extent_le i
      have hext' : extent i ≤ 140 * 512 := hext
      have hsame : ∀ j s, s.first < Function.update extent i (max (extent i) upto) j ↔
          Slot.first s < extent j := by
        intro j s
        by_cases hj : j = i
        · subst hj
          obtain ⟨k, hk⟩ := s.exists_first
          rw [Function.update_self, hk]
          omega
        · rw [Function.update_of_ne hj]
      refine h.congr_extent hsame fun j => ?_
      by_cases hj : j = i
      · subst hj
        rw [Function.update_self]
        show _ ≤ 140 * 512
        omega
      · rw [Function.update_of_ne hj]
        exact h.extent_le j
    · rw [hself]
      exact ha
    · rw [hself]
      exact fun _ _ _ => rfl

end Bmap

/-! ### `writei` -/

theorem write_apply (data : Data) {s m y : Nat} (bytes : Nat → Byte) (hsm : s + m ≤ 512)
    (hs : s < 512) (hy : y < 512) :
    Memory.write data (BitVec.ofNat 9 s) m bytes (BitVec.ofNat 9 y)
      = if s ≤ y ∧ y < s + m then bytes (y - s) else data (BitVec.ofNat 9 y) := by
  have hs' : (BitVec.ofNat 9 s).toNat = s := by rw [BitVec.toNat_ofNat]; omega
  have hy' : (BitVec.ofNat 9 y).toNat = y := by rw [BitVec.toNat_ofNat]; omega
  have hwithin := within_iff_of_le (a := BitVec.ofNat 9 s) (n := m) (by rw [hs']; exact hsm)
    (BitVec.ofNat 9 y)
  rw [hs', hy'] at hwithin
  unfold Memory.write
  by_cases hin : s ≤ y ∧ y < s + m
  · have hoffset : offset (BitVec.ofNat 9 s) (BitVec.ofNat 9 y) = y - s := by
      rw [offset, BitVec.toNat_sub, hs', hy']
      omega
    rw [if_pos (hwithin.mpr hin), if_pos hin, hoffset]
  · rw [if_neg (fun h => hin (hwithin.mp h)), if_neg hin]

section Write

variable {d : Disk} {inodes : Nat → Inode} {extent : Nat → Nat} {i bn : Nat} {a : Word}

theorem Owned.holds_put (h : Owned d inodes) (hbn : bn < MAXFILE)
    (ha : holds d.block inodes (i, .ofBlock bn) = some a) (data : Data) :
    holds (d.put a data).block inodes = holds d.block inodes := by
  refine holds_congr fun j c hc => Disk.put_block_of_ne d data ?_
  rintro rfl
  exact Slot.ofBlock_ne_table hbn (congrArg Prod.snd (h.exact.single _ _ _ ha hc))

/-- A block that belongs to the contents of a file is overwritten. -/
theorem Sound.put (h : Sound d inodes extent) (hbn : bn < MAXFILE)
    (ha : holds d.block inodes (i, .ofBlock bn) = some a) (data : Data) :
    Sound (d.put a data) inodes extent := by
  have hdata := h.dataStart_le ha
  have hkept : d.Kept (d.put a data) := .put (d.sb.bmapstart_lt.le.trans hdata) data
  have hholds := h.holds_put hbn ha data
  constructor
  · refine ⟨h.valid, ?_, h.blank, ?_⟩
    · rw [hkept.block 1 h.valid.one_lt_bmapstart]
      exact h.super
    · have hused : (d.put a data).Used = d.Used :=
        funext fun b => propext (Disk.used_put_data data h.valid hdata b)
      rw [hholds, hused]
      exact h.exact
  · rw [hholds]
    exact h.mapped
  · exact h.extent_le

theorem Sound.byteAt_put (h : Sound d inodes extent) (hbn : bn < MAXFILE)
    (ha : holds d.block inodes (i, .ofBlock bn) = some a) (data : Data) {j off : Nat}
    (hoff : off < MAXFILE * 512) :
    byteAt (d.put a data).block inodes j off
      = if j = i ∧ off / 512 = bn then data (BitVec.ofNat 9 (off % 512))
        else byteAt d.block inodes j off := by
  have hoff' : off / 512 < MAXFILE := by
    have hlt : off < 140 * 512 := hoff
    show off / 512 < 140
    omega
  unfold byteAt
  rw [h.holds_put hbn ha data]
  by_cases hself : j = i ∧ off / 512 = bn
  · obtain ⟨rfl, rfl⟩ := hself
    rw [ha, if_pos ⟨rfl, rfl⟩]
    show (d.put a data).block a _ = _
    rw [Disk.put_block_self]
  · rw [if_neg hself]
    cases hc : holds d.block inodes (j, .ofBlock (off / 512)) with
    | none => rfl
    | some c =>
        have hca : c ≠ a := by
          rintro rfl
          have hplace := h.exact.single _ _ _ hc ha
          exact hself ⟨congrArg Prod.fst hplace,
            Slot.ofBlock_inj hoff' hbn (congrArg Prod.snd hplace)⟩
        show (d.put a data).block c _ = d.block c _
        rw [Disk.put_block_of_ne d data hca]

/-- What writing `src` at `off` does. -/
structure Written (d : Disk) (inodes : Nat → Inode) (extent : Nat → Nat) (i off : Nat)
    (src : List Byte) (ip : Inode) (d' : Disk) : Prop where
  sound : Sound d' (Function.update inodes i ip)
    (Function.update extent i (max (extent i) (off + src.length)))
  kept : d.Kept d'
  byteAt_eq : ∀ j x, x < MAXFILE * 512 →
    byteAt d'.block (Function.update inodes i ip) j x
      = if j = i ∧ off ≤ x ∧ x < off + src.length then src.getD (x - off) 0
        else byteAt d.block inodes j x
  fields : ip = { inodes i with addrs := ip.addrs }
  same : off + src.length ≤ extent i → ip = inodes i

theorem Written.nil (h : Sound d inodes extent) {off : Nat} (hoff : off ≤ extent i) :
    Written d inodes extent i off [] (inodes i) d := by
  have hmax : max (extent i) (off + ([] : List Byte).length) = extent i := by simpa using hoff
  refine ⟨?_, .refl d, ?_, rfl, fun _ => rfl⟩
  · rw [hmax, Function.update_eq_self, Function.update_eq_self]
    exact h
  · intro j x _
    rw [Function.update_eq_self, if_neg (by simp)]

/-- The bytes of a write, those in its first block apart. -/
theorem getD_write {src : List Byte} {off m x : Nat} {old : Byte} (hm : m ≤ src.length) :
    (if off + m ≤ x ∧ x < off + m + (src.drop m).length then (src.drop m).getD (x - (off + m)) 0
      else if off ≤ x ∧ x < off + m then src.getD (x - off) 0 else old)
      = if off ≤ x ∧ x < off + src.length then src.getD (x - off) 0 else old := by
  rw [List.length_drop]
  by_cases hrest : off + m ≤ x ∧ x < off + m + (src.length - m)
  · rw [if_pos hrest, if_pos (by omega), List.getD_eq_getElem?_getD, List.getElem?_drop,
      show m + (x - (off + m)) = x - off by omega, List.getD_eq_getElem?_getD]
  · rw [if_neg hrest]
    by_cases hfirst : off ≤ x ∧ x < off + m
    · rw [if_pos hfirst, if_pos (by omega)]
    · rw [if_neg hfirst, if_neg (by omega)]

/-- One block is written and the rest of the bytes after it. -/
theorem Written.cons {d₁ d₂ : Disk} {off m : Nat} {src : List Byte} {addr : Word} {ip ip' : Inode}
    (hm : m = min src.length (512 - off % 512)) (hpos : 0 < src.length)
    (hend : off + src.length ≤ MAXFILE * BSIZE)
    (hmapped : Mapped d inodes extent i (off / 512) (off + m) (addr, ip) d₁)
    (hrest : Written (d₁.put addr ((d₁.block addr).write (BitVec.ofNat 9 (off % 512)) m
        fun k => src.getD k 0)) (Function.update inodes i ip)
      (Function.update extent i (max (extent i) (off + m))) i (off + m) (src.drop m) ip' d₂) :
    Written d inodes extent i off src ip' d₂ := by
  have hend' : off + src.length ≤ 140 * 512 := hend
  have hbn : off / 512 < MAXFILE := show off / 512 < 140 by omega
  have hdata := hmapped.sound.dataStart_le hmapped.addr
  constructor
  · have hsound := hrest.sound
    rw [Function.update_idem, Function.update_idem, Function.update_self,
      List.length_drop] at hsound
    rwa [show max (max (extent i) (off + m)) (off + m + (src.length - m))
      = max (extent i) (off + src.length) by omega] at hsound
  · refine (hmapped.kept.trans (.put ?_ _)).trans hrest.kept
    exact d₁.sb.bmapstart_lt.le.trans hdata
  · intro j x hx
    have hbyte := hrest.byteAt_eq j x hx
    rw [Function.update_idem, hmapped.sound.byteAt_put hbn hmapped.addr _ hx,
      hmapped.byteAt_eq j x hx] at hbyte
    rw [hbyte]
    by_cases hj : j = i
    · subst hj
      have hx' : x < 140 * 512 := hx
      have hold : byteAt d.block inodes j x = byteAt d₁.block (Function.update inodes j ip) j x :=
        (hmapped.byteAt_eq j x hx).symm
      simp only [true_and]
      refine (if_congr Iff.rfl rfl ?_).trans (getD_write (m := m) (by omega))
      by_cases hblock : x / 512 = off / 512
      · rw [if_pos hblock, write_apply _ _ (by omega) (by omega) (by omega)]
        have hin : (off % 512 ≤ x % 512 ∧ x % 512 < off % 512 + m) ↔ off ≤ x ∧ x < off + m := by
          omega
        refine if_congr hin (congrArg (src.getD · 0) ?_) ?_
        · omega
        · rw [hold, byteAt, hblock, hmapped.addr]
      · rw [if_neg hblock, if_neg (by omega)]
    · simp [hj]
  · have hfields := hrest.fields
    rw [Function.update_self] at hfields
    exact hfields.trans (congrArg (fun q : Inode => { q with addrs := ip'.addrs }) hmapped.fields)
  · intro hle
    have hsame := hrest.same (by rw [Function.update_self, List.length_drop]; omega)
    rw [hsame, Function.update_self]
    exact hmapped.same (by omega)

theorem writeBlocks_post {fuel off : Nat} {src : List Byte} (h : Sound d inodes extent)
    (hi : i < d.sb.ninodes.toNat) (hfuel : src.length ≤ fuel) (hoff : off ≤ extent i)
    (hend : off + src.length ≤ MAXFILE * BSIZE) :
    Post (writeBlocks fuel (inodes i) off src d) (Written d inodes extent i off src) NoSpace := by
  induction fuel generalizing d inodes extent off src with
  | zero =>
      have hnil : src = [] := List.length_eq_zero_iff.mp (Nat.le_zero.mp hfuel)
      subst hnil
      exact Written.nil h hoff
  | succ fuel ih =>
      rw [writeBlocks]
      by_cases hnil : src = []
      · subst hnil
        rw [if_pos rfl]
        exact Written.nil h hoff
      · have hpos : 0 < src.length := List.length_pos_iff.mpr hnil
        have hend' : off + src.length ≤ 140 * 512 := hend
        have hbn : off / 512 < MAXFILE := show off / 512 < 140 by omega
        obtain ⟨m, hm⟩ : ∃ m, m = min src.length (512 - off % 512) := ⟨_, rfl⟩
        rw [if_neg hnil, post_bind]
        have hlo : 512 * (off / 512) < off + m := by omega
        refine (bmap_post h hi hbn (by omega) hlo (by omega)).imp ?_
        rintro ⟨addr, ip⟩ d₁ hmapped
        have hm' : min src.length (BSIZE - off % BSIZE) = m := hm.symm
        have hself : Function.update inodes i ip i = ip := Function.update_self i ip inodes
        simp only [hm', post_bind, post_modify]
        have hoff' : off + m ≤ Function.update extent i (max (extent i) (off + m)) i := by
          rw [Function.update_self]
          omega
        have hnext := ih
          (hmapped.sound.put hbn hmapped.addr ((d₁.block addr).write (BitVec.ofNat 9 (off % 512)) m
            fun k => src.getD k 0))
          (by rw [Disk.put_sb, hmapped.kept.sb]; exact hi)
          (show (src.drop m).length ≤ fuel by rw [List.length_drop]; omega)
          hoff'
          (by rw [List.length_drop]; show _ ≤ 140 * 512; omega)
        rw [hself] at hnext
        exact hnext.imp fun ip' d₂ hrest => .cons hm hpos hend hmapped hrest

end Write

/-! ### `readi` -/

theorem range_map_split {α : Type} (f : Nat → α) {m n : Nat} (hmn : m ≤ n) :
    (List.range m).map f ++ (List.range (n - m)).map (fun k => f (m + k))
      = (List.range n).map f := by
  obtain ⟨k, rfl⟩ := Nat.exists_eq_add_of_le hmn
  rw [Nat.add_sub_cancel_left, List.range_add, List.map_append, List.map_map]
  rfl

/-- No block is allocated for bytes that the file has. -/
theorem readBlocks_eq {d : Disk} {inodes : Nat → Inode} {extent : Nat → Nat} {i fuel off n : Nat}
    (h : Sound d inodes extent) (hfuel : n ≤ fuel) (hend : off + n ≤ extent i) :
    readBlocks fuel (inodes i) off n d
      = .ok ((List.range n).map fun k => byteAt d.block inodes i (off + k), inodes i) d := by
  induction fuel generalizing off n with
  | zero =>
      obtain rfl : n = 0 := Nat.le_zero.mp hfuel
      rfl
  | succ fuel ih =>
      rw [readBlocks]
      by_cases hn : n = 0
      · subst hn
        rfl
      · have hext : extent i ≤ 140 * 512 := h.extent_le i
        have hbn : off / 512 < MAXFILE := show off / 512 < 140 by omega
        obtain ⟨a, ha, hrun⟩ := bmap_of_mapped (i := i) h hbn (by omega)
        obtain ⟨m, hm⟩ : ∃ m, m = min n (512 - off % 512) := ⟨_, rfl⟩
        have hm' : min n (BSIZE - off % BSIZE) = m := hm.symm
        have hrest := ih (show n - m ≤ fuel by omega)
          (show off + m + (n - m) ≤ extent i by omega)
        have hbytes : (List.range m).map (fun k => d.block a (BitVec.ofNat 9 (off % 512 + k)))
            = (List.range m).map fun k => byteAt d.block inodes i (off + k) := by
          refine List.map_congr_left fun k hk => ?_
          have hk' := List.mem_range.mp hk
          rw [byteAt, show (off + k) / 512 = off / 512 by omega, ha,
            show (off + k) % 512 = off % 512 + k by omega]
        have hget : (get : Op Disk) d = .ok d d := rfl
        rw [if_neg hn, bind_of_ok hrun]
        simp only [hm']
        rw [bind_of_ok hget, bind_of_ok hrest]
        show EStateM.Result.ok (((List.range m).map fun k =>
          d.block a (BitVec.ofNat 9 (off % 512 + k))) ++ _, inodes i) d = _
        rw [hbytes, ← range_map_split (fun k => byteAt d.block inodes i (off + k))
          (show m ≤ n by omega)]
        simp only [Nat.add_assoc]

end Acos.Storage.Fs
