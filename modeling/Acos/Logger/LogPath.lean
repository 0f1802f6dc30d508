import Acos.Logger.SwapLogs

/-!
# A log in another directory

`swap_logs` looks for the highest number in the working directory, with the path of the log in front
of the number, and renames by this path. The names in a directory have no slash, so that the scan
finds nothing if the path has one: only the current log is renamed, over a rotated log with number
one.
-/

namespace Acos.Logger

open CString FileSystem

/-- A log in the directory that `dirName` leads to. -/
structure LogPath where
  dirName : Name
  base : LogName
  length_le : (dirName ++ 47 :: base.bytes).length ≤ 240

def LogPath.bytes (path : LogPath) : Name := path.dirName ++ 47 :: path.base.bytes

/-- The entry of the directory that the path leads to. -/
def entryOf (dirName path : Name) : Option Name :=
  if dirName ++ [47] <+: path then some (path.drop (dirName.length + 1)) else none

/-- `rename` with two paths into the directory that `dirName` leads to. -/
def renameIn (dirName old new : Name) (d : Dir) : Dir :=
  match entryOf dirName old, entryOf dirName new with
  | some old, some new => d.rename old new
  | _, _ => d

/-- No file of the directory has two names, so that it is a map from names to contents. -/
def OneName (d : Dir) : Prop :=
  ∀ a b inode, d.inode a = some inode → d.inode b = some inode → a = b

/-! ### The rotation by a path -/

theorem entryOf_append (dirName name : Name) :
    entryOf dirName (dirName ++ 47 :: name) = some name := by
  have hprefix : dirName ++ [47] <+: dirName ++ 47 :: name := ⟨name, by simp⟩
  rw [entryOf, if_pos hprefix, ← List.drop_drop, List.drop_left, List.drop_one, List.tail_cons]

theorem renameIn_append (dirName old new : Name) (d : Dir) :
    renameIn dirName (dirName ++ 47 :: old) (dirName ++ 47 :: new) d = d.rename old new := by
  rw [renameIn, entryOf_append, entryOf_append]

theorem tag_path (path : LogPath) (i : Nat) :
    tag path.bytes i = path.dirName ++ 47 :: tag path.base.bytes i := by
  rw [tag, LogPath.bytes, List.append_assoc, List.cons_append, tag]

/-- Nothing in the working directory continues the path of the log. -/
theorem scan_path (path : LogPath) {names : List Name} (hnames : ∀ name ∈ names, 47 ∉ name) :
    scan path.bytes names = 0 := by
  have hentry : ∀ name ∈ names, ∀ mxIdx, scanEntry path.bytes mxIdx name = mxIdx := by
    intro name hname mxIdx
    refine scanEntry_of_not_prefix (fun hprefix => hnames name hname ?_) mxIdx
    exact hprefix.subset (by simp [LogPath.bytes])
  unfold scan
  induction names with
  | nil => rfl
  | cons name names ih =>
      rw [List.foldl_cons, hentry name List.mem_cons_self]
      exact ih (fun other hother => hnames other (List.mem_cons_of_mem name hother))
        fun other hother => hentry other (List.mem_cons_of_mem name hother)

/-- Only the current log is renamed. -/
theorem swapLogs_path (path : LogPath) {names : List Name} (hnames : ∀ name ∈ names, 47 ∉ name)
    (d : Dir) :
    swapLogs (renameIn path.dirName) path.bytes names d
      = d.rename path.base.bytes (tag path.base.bytes 1) := by
  have hnumbered : numbered path.bytes 1 = path.dirName ++ 47 :: tag path.base.bytes 1 := by
    rw [← tag_path]
    exact numbered_eq_tag path.length_le (by decide)
  rw [swapLogs, scan_path path hnames, hnumbered]
  exact renameIn_append path.dirName _ _ d

/-! ### The two rotations -/

section Compare

variable {base : LogName} {d : Dir} {names : List Name} {mx : Nat}

theorem file_rename_base (hone : OneName d) (name : Name) :
    (d.rename base.bytes (tag base.bytes 1)).file name
      = if name = tag base.bytes 1 then (d.file base.bytes).or (d.file (tag base.bytes 1))
        else if name = base.bytes then none else d.file name := by
  have hne : base.bytes ≠ tag base.bytes 1 := (tag_ne_base _ 1).symm
  have hinode := Fs.rename_inode_or
    (fun inode hbase htag => hne (hone _ _ inode hbase htag)) hne name
  rw [Fs.file, hinode, Fs.rename_content]
  split_ifs
  · exact Option.map_or
  · rfl
  · rfl

/-- The files after a rotation in the directory itself, if there is a number to move. -/
theorem file_swapLogs (hone : OneName d) (hmx : (scan base.bytes names).toNat = mx)
    (hpos : 1 ≤ mx) :
    let after := swapLogs renameHere base.bytes names d
    after.file base.bytes = none
      ∧ after.file (tag base.bytes 1) = d.file base.bytes
      ∧ (∀ i, 1 ≤ i → i < mx → after.file (tag base.bytes (i + 1)) = d.file (tag base.bytes i))
      ∧ after.file (tag base.bytes (mx + 1))
        = (d.file (tag base.bytes mx)).or (d.file (tag base.bytes (mx + 1)))
      ∧ (∀ j, mx + 1 < j → after.file (tag base.bytes j) = d.file (tag base.bytes j))
      ∧ ∀ name, name ≠ base.bytes → (∀ j, 1 ≤ j → name ≠ tag base.bytes j) →
        after.file name = d.file name := by
  intro after
  have hrotated : Rotated base.bytes d after mx := by
    refine rotated_swapLogs hmx (fun inode hmoved htop => ?_) fun hzero => by omega
    exact (tag_injective base.bytes).ne (Nat.succ_ne_self mx) (hone _ _ inode htop hmoved)
  have htag : ∀ j, 2 ≤ j → after.file (tag base.bytes j)
      = (shifted base.bytes d mx 0 j).map d.content := by
    intro j hj
    rw [Fs.file, hrotated.tag_inode j hj, hrotated.content]
  refine ⟨?_, ?_, fun i hi hlt => ?_, ?_, fun j hj => ?_, fun name hbase htags => ?_⟩
  · rw [Fs.file, hrotated.base_inode]
    rfl
  · rw [Fs.file, Fs.file, hrotated.first, hrotated.content]
  · rw [htag _ (by omega), shifted_moved hi hlt]
    rfl
  · rw [htag _ (by omega), shifted_top hpos]
    exact Option.map_or
  · rw [htag _ (by omega), shifted_above hj]
    rfl
  · rw [Fs.file, Fs.file, hrotated.others name hbase htags, hrotated.content]

/-- The two rotations leave the same files if moving the numbers changes nothing. -/
theorem same_files_iff (hone : OneName d) (hmx : (scan base.bytes names).toNat = mx)
    (hpos : 1 ≤ mx) :
    (∀ name, (d.rename base.bytes (tag base.bytes 1)).file name
        = (swapLogs renameHere base.bytes names d).file name)
      ↔ (d.file base.bytes).or (d.file (tag base.bytes 1)) = d.file base.bytes
        ∧ (∀ i, 1 ≤ i → i < mx → d.file (tag base.bytes (i + 1)) = d.file (tag base.bytes i))
        ∧ d.file (tag base.bytes (mx + 1))
          = (d.file (tag base.bytes mx)).or (d.file (tag base.bytes (mx + 1))) := by
  obtain ⟨hbase, hfirst, hmoved, htop, habove, hothers⟩ := file_swapLogs hone hmx hpos
  have htag : ∀ j, 2 ≤ j → (d.rename base.bytes (tag base.bytes 1)).file (tag base.bytes j)
      = d.file (tag base.bytes j) := by
    intro j hj
    rw [file_rename_base hone, if_neg ((tag_injective _).ne (by omega)), if_neg (tag_ne_base _ j)]
  constructor
  · intro hsame
    refine ⟨?_, fun i hi hlt => ?_, ?_⟩
    · have hone' := hsame (tag base.bytes 1)
      rwa [file_rename_base hone, if_pos rfl, hfirst] at hone'
    · rw [← htag _ (by omega), hsame, hmoved i hi hlt]
    · exact (htag _ (by omega)).symm.trans ((hsame _).trans htop)
  · rintro ⟨hcurrent, hnumbers, hlast⟩ name
    by_cases hisTag : ∃ j, 1 ≤ j ∧ name = tag base.bytes j
    · obtain ⟨j, hj, rfl⟩ := hisTag
      obtain rfl | hj : j = 1 ∨ 2 ≤ j := by omega
      · rw [file_rename_base hone, if_pos rfl, hfirst, hcurrent]
      rw [htag j hj]
      obtain ⟨i, rfl⟩ : ∃ i, j = i + 1 := ⟨j - 1, by omega⟩
      rcases lt_trichotomy i mx with hlt | rfl | hgt
      · rw [hmoved i (by omega) hlt, hnumbers i (by omega) hlt]
      · rw [htop, ← hlast]
      · rw [habove _ (by omega)]
    · have hname : ∀ j, 1 ≤ j → name ≠ tag base.bytes j := fun j hj heq => hisTag ⟨j, hj, heq⟩
      rw [file_rename_base hone, if_neg (hname 1 le_rfl)]
      split_ifs with hisBase
      · rw [hisBase, hbase]
      · rw [hothers name hisBase hname]

/-- The numbers in the directory are at most the highest one that the scan finds. -/
theorem le_of_file_ne_none (hnames : (names : Multiset Name) = entries d)
    (hmx : (scan base.bytes names).toNat = mx) {i : Nat} (hpos : 1 ≤ i) (hi : i < intMax)
    (hfile : d.file (tag base.bytes i) ≠ none) : i ≤ mx := by
  have hmem : tag base.bytes i ∈ names := by
    rw [← Multiset.mem_coe, hnames]
    refine mem_entries_of_isSome (Option.isSome_iff_ne_none.mpr fun hnone => hfile ?_)
    rw [Fs.file, hnone]
    rfl
  exact hmx ▸ le_scan hpos hi hmem

/-- The directory has no rotated log, or the current log and all numbers that an `int` has, with one
content. -/
def Unmoved (base : LogName) (d : Dir) : Prop :=
  (∀ i, 1 ≤ i → i < intMax → d.file (tag base.bytes i) = none)
    ∨ (d.file base.bytes ≠ none
      ∧ ∃ content, ∀ i, 1 ≤ i → i ≤ intMax → d.file (tag base.bytes i) = some content)

theorem unmoved_iff (hnames : (names : Multiset Name) = entries d)
    (hmx : (scan base.bytes names).toNat = mx) (hpos : 1 ≤ mx) :
    ((d.file base.bytes).or (d.file (tag base.bytes 1)) = d.file base.bytes
      ∧ (∀ i, 1 ≤ i → i < mx → d.file (tag base.bytes (i + 1)) = d.file (tag base.bytes i))
      ∧ d.file (tag base.bytes (mx + 1))
        = (d.file (tag base.bytes mx)).or (d.file (tag base.bytes (mx + 1))))
      ↔ Unmoved base d := by
  have hlt : mx < intMax := by
    have hscan := scan_lt base.bytes names
    omega
  constructor
  · rintro ⟨hcurrent, hnumbers, hlast⟩
    have hall : ∀ i, 1 ≤ i → i ≤ mx → d.file (tag base.bytes i) = d.file (tag base.bytes 1) := by
      intro i hi
      induction i, hi using Nat.le_induction with
      | base => exact fun _ => rfl
      | succ i hi ih =>
          intro hle
          rw [hnumbers i hi (by omega), ih (by omega)]
    cases hfile : d.file (tag base.bytes 1) with
    | none =>
        refine .inl fun i hi hint => ?_
        by_contra hsome
        have hle := le_of_file_ne_none hnames hmx hi hint hsome
        exact hsome ((hall i hi hle).trans hfile)
    | some content =>
        have htop : d.file (tag base.bytes (mx + 1)) = some content := by
          rw [hlast, hall mx hpos le_rfl, hfile, Option.some_or]
        have hend : intMax ≤ mx + 1 := by
          by_contra hbelow
          have hle := le_of_file_ne_none hnames hmx (by omega) (Nat.lt_of_not_le hbelow)
            (by rw [htop]; exact Option.some_ne_none content)
          omega
        refine .inr ⟨fun hnone => ?_, content, fun i hi hint => ?_⟩
        · rw [hnone, hfile] at hcurrent
          exact nomatch hcurrent
        · obtain hle | rfl : i ≤ mx ∨ i = mx + 1 := by omega
          · rw [hall i hi hle, hfile]
          · exact htop
  · rintro (hnone | ⟨hcurrent, content, hall⟩)
    · refine ⟨?_, fun i hi hint => ?_, ?_⟩
      · rw [hnone 1 le_rfl (by omega), Option.or_none]
      · rw [hnone i hi (by omega), hnone (i + 1) (by omega) (by omega)]
      · rw [hnone mx hpos hlt, Option.none_or]
    · have hend : intMax - 1 ≤ mx :=
        le_of_file_ne_none hnames hmx (by decide) (by decide)
          (by rw [hall _ (by decide) (Nat.sub_le _ _)]; exact Option.some_ne_none content)
      refine ⟨?_, fun i hi hint => ?_, ?_⟩
      · obtain ⟨current, hfile⟩ := Option.ne_none_iff_exists'.mp hcurrent
        rw [hfile, Option.some_or]
      · rw [hall i hi (by omega), hall (i + 1) (by omega) (by omega)]
      · rw [hall mx hpos hlt.le, hall (mx + 1) (by omega) hlt, Option.some_or]

end Compare

/-- **The path of the log.** A rotation by a path into the directory `d` and one in `d` itself leave
the same files if and only if `d` has no rotated log yet, up to a directory with all numbers in
use. -/
theorem swap_logs_path_iff (path : LogPath) {d : Dir} (hone : OneName d)
    {elsewhere names : List Name} (helsewhere : ∀ name ∈ elsewhere, 47 ∉ name)
    (hnames : (names : Multiset Name) = entries d) :
    (∀ name, (swapLogs (renameIn path.dirName) path.bytes elsewhere d).file name
        = (swapLogs renameHere path.base.bytes names d).file name) ↔ Unmoved path.base d := by
  rw [swapLogs_path path helsewhere]
  obtain ⟨mx, hmx⟩ : ∃ mx, (scan path.base.bytes names).toNat = mx := ⟨_, rfl⟩
  obtain rfl | hpos : mx = 0 ∨ 1 ≤ mx := by omega
  · refine iff_of_true (fun name => ?_) (.inl fun i hi hint => ?_)
    · rw [swapLogs_eq, hmx]
      rfl
    · by_contra hsome
      have hle := le_of_file_ne_none hnames hmx hi hint hsome
      omega
  · exact (same_files_iff hone hmx hpos).trans (unmoved_iff hnames hmx hpos)

/-- The path `d/l`. -/
def subLog : LogPath := ⟨[100], shortLog, by decide⟩

/-- A directory with the log alone. -/
def oneLog : Dir where
  dir := Finmap.singleton shortLog.bytes 0
  content _ := [98]
  fresh := 1
  lt_fresh := by
    intro name inode hinode
    by_cases hbase : name = shortLog.bytes
    · rw [hbase, Finmap.lookup_singleton_eq] at hinode
      cases hinode
      decide
    · rw [Finmap.lookup_eq_none.mpr (by simpa using hbase)] at hinode
      cases hinode

theorem oneLog_inode (name : Name) :
    oneLog.inode name = if name = shortLog.bytes then some 0 else none := by
  unfold Fs.inode oneLog
  split_ifs with hbase
  · rw [hbase, Finmap.lookup_singleton_eq]
  · rw [Finmap.lookup_eq_none.mpr (by simpa using hbase)]

theorem swap_logs_path_iff_oneLog :
    oneLog.file shortLog.bytes = some [98]
      ∧ ∀ name, (swapLogs (renameIn subLog.dirName) subLog.bytes [[46], [46, 46]] oneLog).file name
        = (swapLogs renameHere shortLog.bytes (entries oneLog).toList oneLog).file name := by
  have hone : OneName oneLog := by
    intro a b inode ha hb
    rw [oneLog_inode] at ha hb
    split_ifs at ha hb with hisBase hisBase'
    · exact hisBase.trans hisBase'.symm
  have hunmoved : Unmoved shortLog oneLog := by
    refine .inl fun i _ _ => ?_
    rw [Fs.file, oneLog_inode]
    exact congrArg (Option.map _) (if_neg (tag_ne_base shortLog.bytes i))
  refine ⟨?_, (swap_logs_path_iff subLog hone (by decide) (Multiset.coe_toList _)).mpr hunmoved⟩
  rw [Fs.file, oneLog_inode, if_pos rfl]
  rfl

theorem twoLogs_oneName : OneName twoLogs := by
  intro a b inode ha hb
  rw [twoLogs_inode] at ha hb
  split_ifs at ha hb with ha₁ hb₁ hb₂ ha₂ hb₃ hb₄
  · exact ha₁.trans hb₁.symm
  · cases ha
    cases hb
  · cases ha
    cases hb
  · exact ha₂.trans hb₄.symm

/-- With the log `l` and a rotated log `l.1` in `d`, a rotation of `d/l` overwrites the rotated log,
and one of `l` in `d` does not. -/
theorem path_overwrites_rotated :
    let byPath := swapLogs (renameIn subLog.dirName) subLog.bytes [[46], [46, 46]] twoLogs
    let inPlace := swapLogs renameHere shortLog.bytes (entries twoLogs).toList twoLogs
    twoLogs.file (tag shortLog.bytes 1) = some [97]
      ∧ (∀ name, byPath.file name ≠ some [97])
      ∧ ∃ name, inPlace.file name = some [97] := by
  intro byPath inPlace
  have hrotated : twoLogs.file (tag shortLog.bytes 1) = some [97] := by
    rw [Fs.file, twoLogs_inode, if_pos rfl]
    rfl
  have hcurrent : twoLogs.file shortLog.bytes = some [98] := by
    rw [Fs.file, twoLogs_inode, if_neg (tag_ne_base _ 1).symm, if_pos rfl]
    rfl
  refine ⟨hrotated, fun name => ?_, ?_⟩
  · have hpath : byPath = twoLogs.rename shortLog.bytes (tag shortLog.bytes 1) :=
      swapLogs_path subLog (by decide) twoLogs
    rw [hpath, file_rename_base twoLogs_oneName, hcurrent, Option.some_or]
    split_ifs with hisTag hisBase
    · decide
    · exact (Option.some_ne_none _).symm
    · rw [Fs.file, twoLogs_inode, if_neg hisTag, if_neg hisBase]
      exact (Option.some_ne_none _).symm
  · have hpos : 1 ≤ (scan shortLog.bytes (entries twoLogs).toList).toNat :=
      le_of_file_ne_none (Multiset.coe_toList _) rfl le_rfl (by decide)
        (by rw [hrotated]; exact Option.some_ne_none _)
    obtain ⟨-, -, hmoved, htop, -⟩ := file_swapLogs twoLogs_oneName rfl hpos
    rcases hpos.eq_or_lt with hmx | hmx
    · rw [← hmx, hrotated, Option.some_or] at htop
      exact ⟨_, htop⟩
    · exact ⟨_, (hmoved 1 le_rfl hmx).trans hrotated⟩

end Acos.Logger
