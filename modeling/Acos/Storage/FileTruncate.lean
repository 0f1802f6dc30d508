import Acos.Storage.FileData

/-!
# Truncating files

`itrunc` gives back every block of a file, those that only the block of addresses refers to
included, and none of another file. It never finds a block that is already free.
-/

namespace Acos.Storage.Fs

open Ownership Outcome

/-- Only blocks of the map differ. -/
structure Disk.MapOnly (d d' : Disk) : Prop where
  sb : d'.sb = d.sb
  block : ∀ c : Word, c.toNat < d.sb.bmapstart.toNat ∨ d.sb.dataStart ≤ c.toNat →
    d'.block c = d.block c

namespace Disk.MapOnly

variable {d d' d'' : Disk}

theorem refl (d : Disk) : MapOnly d d := ⟨rfl, fun _ _ => rfl⟩

theorem trans (h : MapOnly d d') (h' : MapOnly d' d'') : MapOnly d d'' where
  sb := h'.sb.trans h.sb
  block c hc := (h'.block c (by rwa [h.sb])).trans (h.block c hc)

theorem kept (h : MapOnly d d') : Kept d d' := ⟨h.sb, fun c hc => h.block c (.inl hc)⟩

theorem super (h : MapOnly d d') (hvalid : d.sb.Valid)
    (hsuper : SuperBlock.decode (d.block 1) = d.sb) : SuperBlock.decode (d'.block 1) = d'.sb := by
  rw [h.sb, h.block 1 (.inl hvalid.one_lt_bmapstart), hsuper]

end Disk.MapOnly

/-- The places are emptied one after the other. -/
def emptied (ps : List Place) (held : Place → Option Word) : Place → Option Word :=
  ps.foldl (fun held p => Function.update held p none) held

theorem emptied_apply (ps : List Place) (held : Place → Option Word) (p : Place) :
    emptied ps held p = if p ∈ ps then none else held p := by
  induction ps generalizing held with
  | nil => rfl
  | cons q ps ih =>
      rw [emptied, List.foldl_cons]
      refine (ih _).trans ?_
      by_cases hp : p = q
      · simp [hp]
      · simp [hp]

/-- What the account of the blocks needs of the disk, with `held` in place of what the places
hold. -/
structure Accounted (d : Disk) (held : Place → Option Word) : Prop where
  valid : d.sb.Valid
  super : SuperBlock.decode (d.block 1) = d.sb
  exact : Exact (fun a : Word => a.toNat < d.sb.dataStart) d.Used held

section Free

variable {d : Disk} {held : Place → Option Word} {i : Nat} {a : Word}

theorem bfree_ok (h : Accounted d held) {p : Place} (hp : held p = some a) :
    ∃ d', bfree a d = .ok () d' ∧ d.MapOnly d' ∧ Accounted d' (Function.update held p none) := by
  obtain ⟨ha, hused⟩ := h.exact.used hp
  have hreadsb : readsb d = .ok () d := by
    show EStateM.Result.ok () { d with sb := .decode (d.block 1) } = _
    rw [h.super]
  have hget : (get : Op Disk) d = .ok d d := rfl
  have hmap := h.valid.BBLOCK_lt ha
  have hle := h.valid.le_BBLOCK ha
  have honly : d.MapOnly (d.unmark a.toNat) := by
    refine ⟨rfl, fun c hc => Disk.put_block_of_ne d _ ?_⟩
    rintro rfl
    omega
  refine ⟨d.unmark a.toNat, ?_, honly, h.valid, honly.super h.valid h.super, ?_⟩
  · rw [bfree, bind_of_ok hreadsb, bind_of_ok hget, if_pos hused]
    rfl
  · refine h.exact.give hp fun b => ?_
    constructor
    · rintro ⟨hb, hbit⟩
      rw [Disk.used_unmark h.valid ha hb] at hbit
      by_cases hba : b.toNat = a.toNat
      · rw [if_pos hba] at hbit
        cases hbit
      · rw [if_neg hba] at hbit
        exact ⟨fun heq => hba (congrArg _ heq), hb, hbit⟩
    · rintro ⟨hne, hb, hbit⟩
      refine ⟨hb, ?_⟩
      rw [Disk.used_unmark h.valid ha hb, if_neg fun heq => hne (BitVec.eq_of_toNat_eq heq)]
      exact hbit

/-- The inode after the first loop. -/
def clearDirect (ks : List (Fin NDIRECT)) (ip : Inode) : Inode :=
  ks.foldl (fun ip k => ip.setAddr k.castSucc 0) ip

theorem freeDirect_ok (ks : List (Fin NDIRECT)) (ip : Inode) (h : Accounted d held)
    (hheld : ∀ k, held (i, .direct k) = ref (ip.addrs k.castSucc)) :
    ∃ d', freeDirect ks ip d = .ok (clearDirect ks ip) d' ∧ d.MapOnly d' ∧
      Accounted d' (emptied (ks.map fun k => (i, .direct k)) held) := by
  induction ks generalizing d held ip with
  | nil => exact ⟨d, rfl, .refl d, h⟩
  | cons k ks ih =>
      have hnext : ∀ l, Function.update held (i, .direct k) none (i, .direct l)
          = ref ((ip.setAddr k.castSucc 0).addrs l.castSucc) := by
        intro l
        by_cases hl : l = k
        · subst hl
          simp [Inode.setAddr]
        · rw [Function.update_of_ne (by simp [hl]), hheld]
          simp [Inode.setAddr, hl]
      rw [freeDirect]
      by_cases hzero : ip.addrs k.castSucc = 0
      · have hself : ip.setAddr k.castSucc 0 = ip := by
          rw [Inode.setAddr, ← hzero, Function.update_eq_self]
        have hnone : Function.update held (i, .direct k) none = held := by
          have hk := hheld k
          rw [hzero] at hk
          exact (congrArg _ hk.symm).trans (Function.update_eq_self _ _)
        rw [if_pos hzero]
        rw [hself, hnone] at hnext
        obtain ⟨d', hrun, honly, haccount⟩ := ih ip h hnext
        refine ⟨d', ?_, honly, ?_⟩
        · rw [hrun, clearDirect, clearDirect, List.foldl_cons, hself]
        · rw [List.map_cons, emptied, List.foldl_cons, hnone]
          exact haccount
      · rw [if_neg hzero]
        obtain ⟨d₁, hfree, honly₁, haccount₁⟩ := bfree_ok h ((hheld k).trans (ref_of_ne hzero))
        obtain ⟨d₂, hrun, honly₂, haccount₂⟩ := ih _ haccount₁ hnext
        exact ⟨d₂, (bind_of_ok hfree).trans hrun, honly₁.trans honly₂, haccount₂⟩

theorem freeEntries_ok {js : List (Fin NINDIRECT)} {t : Word} (h : Accounted d held)
    (ht : d.sb.dataStart ≤ t.toNat) (hnodup : js.Nodup)
    (hheld : ∀ j ∈ js, held (i, .entry j) = ref ((d.block t).word j)) :
    ∃ d', freeEntries t js d = .ok () d' ∧ d.MapOnly d' ∧
      Accounted d' (emptied (js.map fun j => (i, .entry j)) held) := by
  induction js generalizing d held with
  | nil => exact ⟨d, rfl, .refl d, h⟩
  | cons j js ih =>
      have hget : (get : Op Disk) d = .ok d d := rfl
      obtain ⟨hj, hnodup⟩ := List.nodup_cons.mp hnodup
      have hnext : ∀ l ∈ js, Function.update held (i, .entry j) none (i, .entry l)
          = ref ((d.block t).word l) := by
        intro l hl
        have hlj : l ≠ j := ne_of_mem_of_not_mem hl hj
        rw [Function.update_of_ne (by simp [hlj]), hheld l (.tail j hl)]
      rw [freeEntries, bind_of_ok hget]
      by_cases hzero : (d.block t).word j = 0
      · have hnone : Function.update held (i, .entry j) none = held := by
          have hj := hheld j (.head js)
          rw [hzero] at hj
          exact (congrArg _ hj.symm).trans (Function.update_eq_self _ _)
        rw [if_pos hzero]
        rw [hnone] at hnext
        obtain ⟨d', hrun, honly, haccount⟩ := ih h ht hnodup hnext
        refine ⟨d', hrun, honly, ?_⟩
        rw [List.map_cons, emptied, List.foldl_cons, hnone]
        exact haccount
      · rw [if_neg hzero]
        obtain ⟨d₁, hfree, honly₁, haccount₁⟩ :=
          bfree_ok h ((hheld j (.head js)).trans (ref_of_ne hzero))
        have hblock := honly₁.block t (.inr ht)
        obtain ⟨d₂, hrun, honly₂, haccount₂⟩ :=
          ih haccount₁ (by rwa [honly₁.sb]) hnodup (by rw [hblock]; exact hnext)
        exact ⟨d₂, (bind_of_ok hfree).trans hrun, honly₁.trans honly₂, haccount₂⟩

theorem clearDirect_eq (ks : List (Fin NDIRECT)) (ip : Inode) :
    clearDirect ks ip =
      { ip with addrs := fun m => if m ∈ ks.map Fin.castSucc then 0 else ip.addrs m } := by
  induction ks generalizing ip with
  | nil => rfl
  | cons k ks ih =>
      rw [clearDirect, List.foldl_cons]
      refine (ih _).trans ?_
      simp only [Inode.setAddr, Inode.mk.injEq, true_and]
      funext m
      by_cases hm : m = k.castSucc
      · simp [hm]
      · simp [hm]

/-- The inode without its blocks. -/
def Inode.truncated (ip : Inode) : Inode := { ip with size := 0, addrs := fun _ => 0 }

theorem truncated_eq (ip : Inode) :
    { (clearDirect (List.finRange NDIRECT) ip).setAddr (Fin.last NDIRECT) 0 with size := 0 }
      = ip.truncated := by
  rw [clearDirect_eq]
  simp only [Inode.setAddr, Inode.truncated, Inode.mk.injEq, true_and]
  funext m
  refine Fin.lastCases ?_ (fun k => ?_) m
  · rw [Function.update_self]
  · rw [Function.update_of_ne (Fin.castSucc_lt_last k).ne, if_pos]
    exact List.mem_map_of_mem (List.mem_finRange k)

/-- The places that are reached through the block of addresses, and its own. -/
def tablePlaces (i : Nat) : List Place :=
  ((List.finRange NINDIRECT).map fun j => (i, .entry j)) ++ [(i, .table)]

theorem freeTable_ok (ip : Inode) (h : Accounted d held)
    (htable : held (i, .table) = ref (ip.addrs (Fin.last NDIRECT)))
    (hentry : ∀ j, held (i, .entry j)
      = (held (i, .table)).bind fun t => ref ((d.block t).word j.val)) :
    ∃ d', freeTable ip d = .ok (ip.setAddr (Fin.last NDIRECT) 0) d' ∧ d.MapOnly d' ∧
      Accounted d' (emptied (tablePlaces i) held) := by
  rw [freeTable]
  by_cases hzero : ip.addrs (Fin.last NDIRECT) = 0
  · have hself : ip.setAddr (Fin.last NDIRECT) 0 = ip := by
      rw [Inode.setAddr, ← hzero, Function.update_eq_self]
    have hnone : held (i, .table) = none := by rw [htable, hzero]; rfl
    have hsame : emptied (tablePlaces i) held = held := by
      funext p
      rw [emptied_apply]
      split
      · rename_i hp
        simp only [tablePlaces, List.mem_append, List.mem_map, List.mem_singleton] at hp
        rcases hp with ⟨j, -, rfl⟩ | rfl
        · rw [hentry, hnone]
          rfl
        · exact hnone.symm
      · rfl
    rw [if_pos hzero, hself, hsame]
    exact ⟨d, rfl, .refl d, h⟩
  · obtain ⟨t, ht⟩ : ∃ t, t = ip.addrs (Fin.last NDIRECT) := ⟨_, rfl⟩
    rw [← ht] at hzero htable ⊢
    have hheld : held (i, .table) = some t := htable.trans (ref_of_ne hzero)
    have hdata : d.sb.dataStart ≤ t.toNat := Nat.le_of_not_lt (h.exact.apart _ _ hheld)
    obtain ⟨d₁, hrun₁, honly₁, haccount₁⟩ :=
      freeEntries_ok (i := i) h hdata (List.nodup_finRange NINDIRECT) fun j _ => by
        rw [hentry, hheld]
        rfl
    have hheld₁ : emptied ((List.finRange NINDIRECT).map fun j => (i, .entry j)) held (i, .table)
        = some t := by
      rw [emptied_apply, if_neg (by simp), hheld]
    obtain ⟨d₂, hrun₂, honly₂, haccount₂⟩ := bfree_ok haccount₁ hheld₁
    refine ⟨d₂, ?_, honly₁.trans honly₂, ?_⟩
    · rw [if_neg hzero, bind_of_ok hrun₁, bind_of_ok hrun₂]
      rfl
    · rw [emptied, tablePlaces, List.foldl_append]
      exact haccount₂

end Free

theorem holds_entry_bind (block : Word → Data) (inodes : Nat → Inode) (i : Nat)
    (j : Fin NINDIRECT) : holds block inodes (i, .entry j)
      = (holds block inodes (i, .table)).bind fun t => ref ((block t).word j.val) := by
  cases htable : holds block inodes (i, .table) with
  | none => exact holds_entry_none htable j
  | some t => exact holds_entry htable j

/-- All places of the inode are empty in the end, and its blocks are free. -/
theorem itrunc_ok {d : Disk} {inodes : Nat → Inode} (h : Owned d inodes) (i : Nat) :
    ∃ d', itrunc i (inodes i) d
        = .ok (inodes i).truncated (d'.setDinode i (inodes i).truncated) ∧
      d.MapOnly d' ∧
      Accounted d' (fun p => if p.1 = i then none else holds d.block inodes p) := by
  have haccount : Accounted d (holds d.block inodes) := ⟨h.valid, h.super, h.exact⟩
  obtain ⟨d₁, hrun₁, honly₁, haccount₁⟩ :=
    freeDirect_ok (i := i) (List.finRange NDIRECT) (inodes i) haccount fun _ => rfl
  have hother : ∀ s, (∀ k, s ≠ Slot.direct k) →
      emptied ((List.finRange NDIRECT).map fun k => (i, .direct k)) (holds d.block inodes) (i, s)
        = holds d.block inodes (i, s) := by
    intro s hs
    rw [emptied_apply, if_neg]
    simp only [List.mem_map, List.mem_finRange, true_and, Prod.mk.injEq, not_exists]
    exact fun k hk => hs k hk.symm
  have htable := hother .table fun _ => Slot.noConfusion
  have haddr : (clearDirect (List.finRange NDIRECT) (inodes i)).addrs (Fin.last NDIRECT)
      = (inodes i).addrs (Fin.last NDIRECT) := by
    rw [clearDirect_eq]
    simp [(Fin.castSucc_lt_last _).ne]
  obtain ⟨d₂, hrun₂, honly₂, haccount₂⟩ :=
    freeTable_ok (i := i) (clearDirect (List.finRange NDIRECT) (inodes i)) haccount₁
      (by rw [htable, haddr]; rfl) fun j => by
        rw [hother _ fun _ => Slot.noConfusion, htable, holds_entry_bind]
        cases hcase : holds d.block inodes (i, .table) with
        | none => rfl
        | some t =>
            show ref ((d.block t).word j) = ref ((d₁.block t).word j)
            rw [honly₁.block t (.inr (h.dataStart_le hcase))]
  refine ⟨d₂, ?_, honly₁.trans honly₂, ?_⟩
  · rw [itrunc, bind_of_ok hrun₁, bind_of_ok hrun₂, truncated_eq]
    rfl
  · refine Eq.mp (congrArg (Accounted d₂) ?_) haccount₂
    funext ⟨j, s⟩
    rw [emptied_apply, emptied_apply]
    by_cases hj : j = i
    · subst hj
      cases s <;> simp [tablePlaces]
    · simp [tablePlaces, hj, Ne.symm hj]

section Truncated

variable {d d' : Disk} {inodes : Nat → Inode} {extent : Nat → Nat} {i : Nat}

theorem Disk.MapOnly.block_of_holds (honly : d.MapOnly d') (h : Owned d inodes) {p : Place}
    {c : Word} (hp : holds d.block inodes p = some c) : d'.block c = d.block c :=
  honly.block c (.inr (h.dataStart_le hp))

theorem Disk.MapOnly.holds_truncated (honly : d.MapOnly d') (h : Owned d inodes) (i : Nat) :
    holds d'.block (Function.update inodes i (inodes i).truncated)
      = fun p => if p.1 = i then none else holds d.block inodes p := by
  funext ⟨j, s⟩
  by_cases hj : j = i
  · subst hj
    cases s <;> simp [holds, Slot.addr, Inode.truncated]
  · rw [if_neg hj, ← holds_congr fun _ _ hc => honly.block_of_holds h hc]
    simp [holds, hj]

/-- The inode without blocks fits to the map after its blocks were given back. -/
theorem Sound.truncated (h : Sound d inodes extent) (hi : i < d.sb.ninodes.toNat)
    (honly : d.MapOnly d')
    (haccount : Accounted d' fun p => if p.1 = i then none else holds d.block inodes p) :
    Sound d' (Function.update inodes i (inodes i).truncated) (Function.update extent i 0) := by
  have hholds := honly.holds_truncated h.toOwned i
  refine ⟨⟨haccount.valid, haccount.super, ?_, ?_⟩, fun j s => ?_, fun j => ?_⟩
  · rw [honly.sb]
    exact blank_update h.blank hi
  · rw [hholds]
    exact haccount.exact
  · rw [hholds]
    by_cases hj : j = i
    · simp [hj]
    · simp only [if_neg hj]
      rw [Function.update_of_ne hj]
      exact h.mapped j s
  · by_cases hj : j = i
    · simp [hj]
    · rw [Function.update_of_ne hj]
      exact h.extent_le j

end Truncated

end Acos.Storage.Fs
