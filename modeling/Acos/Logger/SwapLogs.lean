import Acos.Logger.WholeRun

/-!
# One rotation

`swap_logs` in any directory: the numbers may have gaps, and there may be names with suffixes that
are no numbers. The highest number comes from `atoi`, so that it can also be the one of such a
suffix; it is never less than that of a rotated log. The loop moves the numbers from there down to
one.
-/

namespace Acos.Logger

open CString FileSystem

section Swap

variable {S : Type} (rename : Name → Name → S → S) (loggerName : Name)

/-- The loop of `swap_logs`, for the numbers that are left. -/
def renameLoop : Nat → S → S
  | 0, s => s
  | i + 1, s =>
      renameLoop i (rename (numbered loggerName (i + 1)) (numbered loggerName (i + 1 + 1)) s)

/-- `swap_logs`, where `readdir` gives these names and `rename` changes a state. -/
def swapLogs (names : List Name) (s : S) : S :=
  let mxIdx := (scan loggerName names).toNat
  rename loggerName (numbered loggerName 1) (renameLoop rename loggerName mxIdx s)

end Swap

/-- `rename` with two names in the working directory. -/
def renameHere (old new : Name) (fs : Dir) : Dir := fs.rename old new

/-! ### The steps of the logger -/

section Steps

variable {env : Env} {base : Name} {start : State}

theorem trace_renameLoop {n i : Nat} {fs : Dir} (hpc : (trace env base start n).pc
      = if 1 ≤ i then .rename i else .renameBase) (hfs : (trace env base start n).fs = fs) :
    (trace env base start (n + i)).pc = .renameBase
      ∧ (trace env base start (n + i)).fs = renameLoop renameHere base i fs := by
  induction i generalizing n fs with
  | zero => exact ⟨hpc, hfs⟩
  | succ i ih =>
      rw [if_pos (Nat.le_add_left 1 i)] at hpc
      obtain ⟨rotate, hsched⟩ := sched_iterate (trace env base start n) (env.hups n)
      have hstep : (trace env base start (n + 1)).pc
            = (if 1 ≤ i then .rename i else .renameBase)
          ∧ (trace env base start (n + 1)).fs
            = renameHere (numbered base (i + 1)) (numbered base (i + 1 + 1)) fs := by
        rw [trace, hsched, step]
        simp only [hpc, hfs, Nat.add_sub_cancel]
        split_ifs <;> exact ⟨rfl, rfl⟩
      have hsum : n + (i + 1) = n + 1 + i := by omega
      rw [hsum]
      exact ih hstep.1 hstep.2

/-- Between the scan and the opening of the new log, the logger makes the changes of `swap_logs`,
whatever signals arrive. -/
theorem trace_swapLogs {n : Nat} (hpc : (trace env base start n).pc = .scan)
    (hopendir : env.opendir n = true) :
    let fs := (trace env base start n).fs
    let names := env.order n (entries fs)
    let last := trace env base start (n + 1 + (scan base names).toNat + 1)
    last.pc = .reopen ∧ last.fs = swapLogs renameHere base names fs := by
  intro fs names last
  obtain ⟨rotate, hsched⟩ := sched_iterate (trace env base start n) (env.hups n)
  have hstep : (trace env base start (n + 1)).pc
        = (if 1 ≤ (scan base names).toNat then .rename (scan base names).toNat else .renameBase)
      ∧ (trace env base start (n + 1)).fs = fs := by
    rw [trace, hsched, step]
    simp only [hpc, hopendir, if_true]
    split_ifs <;> exact ⟨rfl, rfl⟩
  obtain ⟨hbase, hloop⟩ := trace_renameLoop hstep.1 hstep.2
  obtain ⟨rotate', hsched'⟩ := sched_iterate
    (trace env base start (n + 1 + (scan base names).toNat))
    (env.hups (n + 1 + (scan base names).toNat))
  simp only [last, trace, hsched', step, hbase, hloop, true_and]
  rfl

end Steps

/-! ### The highest number -/

theorem le_scanEntry (base name : Name) (mxIdx : Int) : mxIdx ≤ scanEntry base mxIdx name := by
  unfold scanEntry
  split_ifs
  · exact le_rfl
  · simp only
    split_ifs <;> omega

theorem scanEntry_lt {mxIdx : Int} (hlt : mxIdx < intMax) (base name : Name) :
    scanEntry base mxIdx name < intMax := by
  unfold scanEntry
  split_ifs
  · exact hlt
  · simp only
    split_ifs <;> omega

theorem le_foldl_scanEntry (base : Name) (names : List Name) (mxIdx : Int) :
    mxIdx ≤ names.foldl (scanEntry base) mxIdx := by
  induction names generalizing mxIdx with
  | nil => exact le_rfl
  | cons name names ih => exact (le_scanEntry base name mxIdx).trans (ih _)

theorem scan_lt (base : Name) (names : List Name) : scan base names < intMax := by
  have hfold : ∀ mxIdx : Int, mxIdx < intMax → names.foldl (scanEntry base) mxIdx < intMax := by
    induction names with
    | nil => exact fun _ hlt => hlt
    | cons name names ih => exact fun _ hlt => ih _ (scanEntry_lt hlt base name)
  exact hfold 0 (by decide)

theorem scan_toNat_succ_lt (base : Name) (names : List Name) :
    (scan base names).toNat + 1 < 2 ^ 31 := by
  have hlt := scan_lt base names
  simp only [intMax] at hlt
  omega

/-- No number in the directory is higher. -/
theorem le_scan {base : Name} {names : List Name} {k : Nat} (hpos : 1 ≤ k) (hk : k < intMax)
    (hmem : tag base k ∈ names) : k ≤ (scan base names).toNat := by
  obtain ⟨before, after, rfl⟩ := List.append_of_mem hmem
  have hle := le_foldl_scanEntry base after
    (scanEntry base (before.foldl (scanEntry base) 0) (tag base k))
  rw [ scanEntry_tag hpos hk] at hle
  rw [scan, List.foldl_append, List.foldl_cons, scanEntry_tag hpos hk]
  omega

/-! ### The directory during the loop -/

/-- The inode of number `j` when the numbers above `k` have been moved up. Above the highest number
`mx` only the last one that is moved finds a place, which it takes. -/
def shifted (base : Name) (fs : Dir) (mx k j : Nat) : Option Nat :=
  if j ≤ k ∨ mx + 1 < j then fs.inode (tag base j)
  else if j = mx + 1 then
    (if k < mx then fs.inode (tag base mx) else none).or (fs.inode (tag base (mx + 1)))
  else if j = k + 1 then none
  else fs.inode (tag base (j - 1))

/-- The numbers above `k` have been moved up in the directory `fs₀`. -/
structure Shifted (base : Name) (fs₀ fs : Dir) (mx k : Nat) : Prop where
  tag_inode : ∀ j, 1 ≤ j → fs.inode (tag base j) = shifted base fs₀ mx k j
  others : ∀ name, (∀ j, 1 ≤ j → name ≠ tag base j) → fs.inode name = fs₀.inode name
  content : fs.content = fs₀.content

/-- The directory `fs` behind a rotation, where `fs₀` is the one before. -/
structure Rotated (base : Name) (fs₀ fs : Dir) (mx : Nat) : Prop where
  base_inode : fs.inode base = none
  first : fs.inode (tag base 1) = fs₀.inode base
  tag_inode : ∀ j, 2 ≤ j → fs.inode (tag base j) = shifted base fs₀ mx 0 j
  others : ∀ name, name ≠ base → (∀ j, 1 ≤ j → name ≠ tag base j) →
    fs.inode name = fs₀.inode name
  content : fs.content = fs₀.content

section Shifted

variable {base : Name} {fs₀ fs : Dir} {mx k : Nat}

theorem Shifted.start (base : Name) (fs : Dir) (mx : Nat) : Shifted base fs fs mx mx where
  tag_inode j _ := by
    unfold shifted
    split_ifs with hreached htop hbelow
    · rfl
    · exact absurd hbelow (lt_irrefl mx)
    · rw [htop, Option.none_or]
    · omega
  others _ _ := rfl
  content := rfl

/-- The number that is moved next is still in its place. -/
theorem shifted_self : shifted base fs₀ mx k k = fs₀.inode (tag base k) :=
  if_pos (.inl le_rfl)

/-- The number above it has been moved, unless it is above the highest one. -/
theorem shifted_succ (hk : k ≤ mx) :
    shifted base fs₀ mx k (k + 1) = if k = mx then fs₀.inode (tag base (mx + 1)) else none := by
  unfold shifted
  rw [if_neg (by omega)]
  by_cases hlast : k = mx
  · subst hlast
    rw [if_pos rfl, if_pos rfl, if_neg (lt_irrefl k), Option.none_or]
  · rw [if_neg (by omega), if_pos rfl, if_neg hlast]

/-- The highest number is moved first. -/
theorem shifted_top (hk : k < mx) : shifted base fs₀ mx k (mx + 1)
    = (fs₀.inode (tag base mx)).or (fs₀.inode (tag base (mx + 1))) := by
  unfold shifted
  rw [if_neg (by omega), if_pos rfl, if_pos hk]

theorem shifted_moved {i : Nat} (hk : k < i) (hi : i < mx) :
    shifted base fs₀ mx k (i + 1) = fs₀.inode (tag base i) := by
  unfold shifted
  rw [if_neg (by omega), if_neg (by omega), if_neg (by omega), Nat.add_sub_cancel]

theorem shifted_above {j : Nat} (hj : mx + 1 < j) :
    shifted base fs₀ mx k j = fs₀.inode (tag base j) :=
  if_pos (.inr hj)

/-- The other numbers are left alone. -/
theorem shifted_pred {j : Nat} (hold : j ≠ k + 1) (hnew : j ≠ k + 1 + 1) :
    shifted base fs₀ mx (k + 1) j = shifted base fs₀ mx k j := by
  unfold shifted
  refine if_congr (by omega) rfl ?_
  by_cases htop : j = mx + 1
  · rw [if_pos htop, if_pos htop]
    congr 1
    exact if_congr (by omega) rfl rfl
  · rw [if_neg htop, if_neg htop, if_neg hnew, if_neg hold]

theorem Shifted.rename (hshifted : Shifted base fs₀ fs mx (k + 1)) (hk : k + 1 ≤ mx)
    (htop : ∀ inode, fs₀.inode (tag base mx) = some inode →
      fs₀.inode (tag base (mx + 1)) ≠ some inode) :
    Shifted base fs₀ (fs.rename (tag base (k + 1)) (tag base (k + 1 + 1))) mx k := by
  have hold := (hshifted.tag_inode (k + 1) (by omega)).trans shifted_self
  have hnew := (hshifted.tag_inode (k + 1 + 1) (by omega)).trans (shifted_succ hk)
  have hlink : ∀ inode, fs.inode (tag base (k + 1)) = some inode →
      fs.inode (tag base (k + 1 + 1)) ≠ some inode := by
    intro inode hinode
    rw [hnew]
    split_ifs with hlast
    · rw [hold, hlast] at hinode
      exact htop inode hinode
    · exact nofun
  have hrename := Fs.rename_inode_or hlink ((tag_injective base).ne (by omega))
  refine ⟨fun j hj => ?_, fun name hname => ?_, ?_⟩
  · rw [hrename]
    simp only [(tag_injective base).eq_iff]
    by_cases hisNew : j = k + 1 + 1
    · rw [if_pos hisNew, hold, hnew, hisNew]
      by_cases hlast : k + 1 = mx
      · rw [if_pos hlast, hlast, shifted_top (by omega)]
      · rw [if_neg hlast, Option.or_none, shifted_moved (by omega) (by omega)]
    by_cases hisOld : j = k + 1
    · rw [if_neg hisNew, if_pos hisOld, hisOld, shifted_succ (by omega), if_neg (by omega)]
    · rw [if_neg hisNew, if_neg hisOld, hshifted.tag_inode j hj, shifted_pred hisOld hisNew]
  · rw [hrename, if_neg (hname _ (by omega)), if_neg (hname _ (by omega)),
      hshifted.others name hname]
  · rw [Fs.rename_content, hshifted.content]

/-- The loop moves all numbers up to the highest one. -/
theorem Shifted.renameLoop (hshifted : Shifted base fs₀ fs mx k) (hk : k ≤ mx)
    (hlength : base.length ≤ 240) (hmx : mx + 1 < 2 ^ 31)
    (htop : ∀ inode, fs₀.inode (tag base mx) = some inode →
      fs₀.inode (tag base (mx + 1)) ≠ some inode) :
    Shifted base fs₀ (renameLoop renameHere base k fs) mx 0 := by
  induction k generalizing fs with
  | zero => exact hshifted
  | succ k ih =>
      have hstep := hshifted.rename hk htop
      rw [← numbered_eq_tag hlength (by omega), ← numbered_eq_tag hlength (by omega)] at hstep
      exact ih hstep (by omega)

/-- If there is nothing above the highest number, the loop overwrites no file. -/
theorem Shifted.contents_renameLoop (hshifted : Shifted base fs₀ fs mx k) (hk : k ≤ mx)
    (hlength : base.length ≤ 240) (hmx : mx + 1 < 2 ^ 31)
    (hfree : fs₀.inode (tag base (mx + 1)) = none) :
    (Logger.renameLoop renameHere base k fs).contents = fs.contents := by
  induction k generalizing fs with
  | zero => rfl
  | succ k ih =>
      have hnew : fs.inode (tag base (k + 1 + 1)) = none := by
        rw [hshifted.tag_inode _ (by omega), shifted_succ hk, hfree, ite_self]
      have hstep := hshifted.rename hk (by rw [hfree]; exact nofun)
      have hcontents : (fs.rename (tag base (k + 1)) (tag base (k + 1 + 1))).contents
          = fs.contents := Fs.contents_rename hnew
      rw [← numbered_eq_tag hlength (by omega), ← numbered_eq_tag hlength (by omega)]
        at hstep hcontents
      exact (ih hstep (by omega)).trans hcontents

/-- Behind the loop the current log becomes number one, if that is free. -/
theorem Shifted.rename_base (hshifted : Shifted base fs₀ fs mx 0)
    (hfree : fs.inode (tag base 1) = none) :
    Rotated base fs₀ (fs.rename base (tag base 1)) mx := by
  have hbase : fs.inode base = fs₀.inode base :=
    hshifted.others base fun j _ => (tag_ne_base base j).symm
  have hlink : ∀ inode, fs.inode base = some inode → fs.inode (tag base 1) ≠ some inode := by
    rw [hfree]
    exact nofun
  have hrename := Fs.rename_inode_or hlink (tag_ne_base base 1).symm
  refine ⟨?_, ?_, fun j hj => ?_, fun name hname htags => ?_, ?_⟩
  · rw [hrename, if_neg (tag_ne_base base 1).symm, if_pos rfl]
  · rw [hrename, if_pos rfl, hbase, hfree, Option.or_none]
  · rw [hrename, if_neg ((tag_injective base).ne (by omega)), if_neg (tag_ne_base base j),
      hshifted.tag_inode j (by omega)]
  · rw [hrename, if_neg (htags 1 le_rfl), if_neg hname, hshifted.others name htags]
  · rw [Fs.rename_content, hshifted.content]

end Shifted

/-! ### A rotation -/

section Rotation

variable {base : LogName} {fs : Dir} {names : List Name} {mx : Nat}

/-- No rotated log has a higher number than the scan has found. -/
theorem inode_eq_none_of_scan_lt (hnames : (names : Multiset Name) = entries fs)
    (hmax : ∀ i, intMax - 1 ≤ i → fs.inode (tag base.bytes i) = none) {i : Nat}
    (hi : (scan base.bytes names).toNat < i) : fs.inode (tag base.bytes i) = none := by
  by_contra hsome
  have hmem : tag base.bytes i ∈ names := by
    rw [← Multiset.mem_coe, hnames]
    exact mem_entries_of_isSome (Option.isSome_iff_ne_none.mpr hsome)
  have hlt : i < intMax - 1 := by
    by_contra hge
    exact hsome (hmax i (Nat.le_of_not_lt hge))
  have hle := le_scan (by omega) (hlt.trans_le (Nat.sub_le _ _)) hmem
  omega

theorem swapLogs_eq (base : LogName) (names : List Name) (fs : Dir) :
    swapLogs renameHere base.bytes names fs
      = (renameLoop renameHere base.bytes (scan base.bytes names).toNat fs).rename base.bytes
        (tag base.bytes 1) := by
  rw [swapLogs, numbered_eq_tag base.length_le (by decide)]
  rfl

/-- The directory behind the loop. -/
theorem shifted_renameLoop (hmx : (scan base.bytes names).toNat = mx)
    (htop : ∀ inode, fs.inode (tag base.bytes mx) = some inode →
      fs.inode (tag base.bytes (mx + 1)) ≠ some inode) :
    Shifted base.bytes fs (renameLoop renameHere base.bytes mx fs) mx 0 :=
  (Shifted.start base.bytes fs mx).renameLoop le_rfl base.length_le
    (hmx ▸ scan_toNat_succ_lt base.bytes names) htop

/-- The directory behind the rotation. If no number is moved, number one has to be free. -/
theorem rotated_swapLogs (hmx : (scan base.bytes names).toNat = mx)
    (htop : ∀ inode, fs.inode (tag base.bytes mx) = some inode →
      fs.inode (tag base.bytes (mx + 1)) ≠ some inode)
    (hzero : mx = 0 → fs.inode (tag base.bytes 1) = none) :
    Rotated base.bytes fs (swapLogs renameHere base.bytes names fs) mx := by
  have hshifted := shifted_renameLoop hmx htop
  rw [swapLogs_eq, hmx]
  refine hshifted.rename_base ?_
  rw [hshifted.tag_inode 1 le_rfl, shifted_succ (Nat.zero_le mx)]
  split_ifs with hnone
  · subst hnone
    exact hzero rfl
  · rfl

/-- If there is nothing above the highest number, the rotation overwrites no file. -/
theorem contents_swapLogs (hmx : (scan base.bytes names).toNat = mx)
    (hfree : fs.inode (tag base.bytes (mx + 1)) = none) :
    (swapLogs renameHere base.bytes names fs).contents = fs.contents := by
  have hshifted := shifted_renameLoop hmx (by rw [hfree]; exact nofun)
  have hfirst : (renameLoop renameHere base.bytes mx fs).inode (tag base.bytes 1) = none := by
    rw [hshifted.tag_inode 1 le_rfl, shifted_succ (Nat.zero_le mx), hfree, ite_self]
  calc (swapLogs renameHere base.bytes names fs).contents
      = ((renameLoop renameHere base.bytes mx fs).rename base.bytes
          (tag base.bytes 1)).contents := by rw [swapLogs_eq, hmx]
    _ = (renameLoop renameHere base.bytes mx fs).contents := Fs.contents_rename hfirst
    _ = fs.contents := (Shifted.start base.bytes fs mx).contents_renameLoop le_rfl base.length_le
        (hmx ▸ scan_toNat_succ_lt base.bytes names) hfree

/-- **One rotation.** Every rotated log gets the next number, the current log gets number one, and
everything else stays as it is. No content is lost and none is there twice. -/
theorem swap_logs_shifts (hnames : (names : Multiset Name) = entries fs)
    (hmax : ∀ i, intMax - 1 ≤ i → fs.inode (tag base.bytes i) = none) :
    let after := swapLogs renameHere base.bytes names fs
    (∀ i, 1 ≤ i → after.file (tag base.bytes (i + 1)) = fs.file (tag base.bytes i))
      ∧ after.file (tag base.bytes 1) = fs.file base.bytes
      ∧ after.file base.bytes = none
      ∧ (∀ name, name ≠ base.bytes → (∀ i, 1 ≤ i → name ≠ tag base.bytes i) →
          after.file name = fs.file name)
      ∧ after.contents = fs.contents := by
  intro after
  obtain ⟨mx, hmx⟩ : ∃ mx, (scan base.bytes names).toNat = mx := ⟨_, rfl⟩
  have habove : ∀ {i}, mx < i → fs.inode (tag base.bytes i) = none := fun hi =>
    inode_eq_none_of_scan_lt hnames hmax (hmx ▸ hi)
  have hfree := habove (Nat.lt_succ_self mx)
  have hrotated : Rotated base.bytes fs after mx :=
    rotated_swapLogs hmx (by rw [hfree]; exact nofun) (by rintro rfl; exact hfree)
  have hmoved : ∀ i, 1 ≤ i →
      after.inode (tag base.bytes (i + 1)) = fs.inode (tag base.bytes i) := by
    intro i hi
    rw [hrotated.tag_inode _ (by omega)]
    rcases lt_trichotomy i mx with hlt | rfl | hgt
    · rw [shifted_moved hi hlt]
    · rw [shifted_top hi, hfree, Option.or_none]
    · rw [shifted_above (by omega), habove hgt, habove (hgt.trans (Nat.lt_succ_self i))]
  refine ⟨fun i hi => ?_, ?_, ?_, fun name hbase htags => ?_, contents_swapLogs hmx hfree⟩
  · rw [Fs.file, Fs.file, hmoved i hi, hrotated.content]
  · rw [Fs.file, Fs.file, hrotated.first, hrotated.content]
  · rw [Fs.file, hrotated.base_inode]
    rfl
  · rw [Fs.file, Fs.file, hrotated.others name hbase htags, hrotated.content]

end Rotation

/-- The log `l`. -/
def shortLog : LogName := ⟨[108], by decide, by decide⟩

/-- The log and one rotated log. -/
def twoLogs : Dir where
  dir := (Finmap.singleton shortLog.bytes 1).insert (tag shortLog.bytes 1) 0
  content inode := if inode = 0 then [97] else [98]
  fresh := 2
  lt_fresh := by
    intro name inode hinode
    by_cases htag : name = tag shortLog.bytes 1
    · rw [htag, Finmap.lookup_insert] at hinode
      cases hinode
      decide
    · rw [Finmap.lookup_insert_of_ne _ htag] at hinode
      by_cases hbase : name = shortLog.bytes
      · rw [hbase, Finmap.lookup_singleton_eq] at hinode
        cases hinode
        decide
      · rw [Finmap.lookup_eq_none.mpr (by simpa using hbase)] at hinode
        cases hinode

theorem twoLogs_inode (name : Name) :
    twoLogs.inode name = if name = tag shortLog.bytes 1 then some 0
      else if name = shortLog.bytes then some 1 else none := by
  unfold Fs.inode twoLogs
  split_ifs with htag hbase
  · rw [htag, Finmap.lookup_insert]
  · rw [Finmap.lookup_insert_of_ne _ htag, hbase, Finmap.lookup_singleton_eq]
  · rw [Finmap.lookup_insert_of_ne _ htag, Finmap.lookup_eq_none.mpr (by simpa using hbase)]

theorem twoLogs_inode_tag {i : Nat} (hi : i ≠ 1) : twoLogs.inode (tag shortLog.bytes i) = none := by
  rw [twoLogs_inode, if_neg ((tag_injective _).ne hi), if_neg (tag_ne_base _ i)]

theorem swap_logs_shifts_twoLogs :
    let after := swapLogs renameHere shortLog.bytes (entries twoLogs).toList twoLogs
    after.file (tag shortLog.bytes 2) = some [97] ∧ after.file (tag shortLog.bytes 1) = some [98]
      ∧ after.file shortLog.bytes = none := by
  have hmax : ∀ i, intMax - 1 ≤ i → twoLogs.inode (tag shortLog.bytes i) = none := by
    intro i hi
    refine twoLogs_inode_tag ?_
    rintro rfl
    exact absurd hi (by decide)
  obtain ⟨hshift, hfirst, hbase, -⟩ := swap_logs_shifts (Multiset.coe_toList _) hmax
  refine ⟨(hshift 1 le_rfl).trans ?_, hfirst.trans ?_, hbase⟩
  · rw [Fs.file, twoLogs_inode, if_pos rfl]
    rfl
  · rw [Fs.file, twoLogs_inode, if_neg (tag_ne_base _ 1).symm, if_pos rfl]
    rfl

end Acos.Logger
