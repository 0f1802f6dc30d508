import Acos.Logger.Model

/-!
# Where the rotated logs are

The directory during a run of the logger, as a list of inodes: the rotated logs, the newest first,
and the current one. In the middle of a rotation the numbers from some point on have been moved up
by one, which leaves a gap; the renaming loop moves the gap down to number one.
-/

namespace Acos.Logger

open CString FileSystem

/-- The name of the `i`-th rotated log, not cut off. -/
def tag (base : Name) (i : Nat) : Name := base ++ 46 :: decimal i

theorem numbered_eq_tag {base : Name} (hlength : base.length ≤ 240) {i : Nat} (hi : i < 2 ^ 31) :
    numbered base i = tag base i := by
  have hdigits : (decimal i).length ≤ 10 := length_decimal_le (by decide) (hi.trans (by decide))
  rw [numbered, snprintf, tag, List.take_of_length_le]
  simp only [List.length_append, List.length_cons, fileMaxName]
  omega

theorem tag_injective (base : Name) : Function.Injective (tag base) := by
  intro i k heq
  exact decimal_injective (List.cons.inj (List.append_cancel_left heq)).2

theorem tag_ne_base (base : Name) (i : Nat) : tag base i ≠ base := by
  intro heq
  have hlength := congrArg List.length heq
  simp only [tag, List.length_append, List.length_cons] at hlength
  omega

theorem prefix_tag (base : Name) (i : Nat) : base ++ [46] <+: tag base i :=
  ⟨decimal i, by simp [tag]⟩

/-! ### The scan -/

/-- The test of the scan: the name continues the log's name with a dot. -/
theorem scan_test_iff {base name : Name} :
    (name.take base.length = base ∧ name.getD base.length 0 = 46) ↔ base ++ [46] <+: name := by
  constructor
  · rintro ⟨htake, hdot⟩
    rw [List.getD_eq_getElem?_getD] at hdot
    have hlt : base.length < name.length := by
      by_contra hge
      rw [List.getElem?_eq_none (by omega)] at hdot
      cases hdot
    rw [List.getElem?_eq_getElem hlt, Option.getD_some] at hdot
    refine ⟨name.drop (base.length + 1), ?_⟩
    rw [← hdot, List.append_assoc, List.singleton_append, List.cons_getElem_drop_succ]
    nth_rewrite 1 [← htake]
    exact List.take_append_drop _ _
  · rintro ⟨rest, rfl⟩
    simp [List.append_assoc]

theorem scanEntry_of_not_prefix {base name : Name} (hname : ¬base ++ [46] <+: name) (mxIdx : Int) :
    scanEntry base mxIdx name = mxIdx := by
  rw [← scan_test_iff, not_and_or] at hname
  exact if_pos hname

theorem scanEntry_tag {base : Name} {k : Nat} (hpos : 1 ≤ k) (hk : k < intMax) (mxIdx : Int) :
    scanEntry base mxIdx (tag base k) = max mxIdx k := by
  have htest := scan_test_iff.mpr (prefix_tag base k)
  have hnum : atoi ((tag base k).drop (base.length + 1)) = k := by
    have hdrop : (tag base k).drop (base.length + 1) = decimal k := by
      rw [tag, ← List.drop_drop, List.drop_left, List.drop_one, List.tail_cons]
    rw [hdrop, atoi_decimal (hk.trans (by decide))]
  rw [scanEntry, if_neg (by simpa using htest)]
  simp only [hnum]
  split_ifs with htaken
  · omega
  · omega

/-- The names that continue the log's name are numbers up to `m`. -/
def NumberedUpTo (base : Name) (m : Nat) (names : List Name) : Prop :=
  ∀ name ∈ names, base ++ [46] <+: name → ∃ k, 1 ≤ k ∧ k ≤ m ∧ name = tag base k

theorem foldl_scanEntry {base : Name} {m : Nat} (hm : m < intMax) (names : List Name) :
    ∀ mxIdx : Int, NumberedUpTo base m names → mxIdx ≤ m →
      mxIdx ≤ names.foldl (scanEntry base) mxIdx ∧ names.foldl (scanEntry base) mxIdx ≤ m
        ∧ (tag base m ∈ names → 1 ≤ m → m ≤ names.foldl (scanEntry base) mxIdx) := by
  induction names with
  | nil => exact fun mxIdx _ hle => ⟨le_refl _, hle, fun hmem => absurd hmem List.not_mem_nil⟩
  | cons name names ih =>
      intro mxIdx hnames hle
      have htail : NumberedUpTo base m names :=
        fun other hother => hnames other (List.mem_cons_of_mem name hother)
      rw [List.foldl_cons]
      by_cases hprefix : base ++ [46] <+: name
      · obtain ⟨k, hpos, hk, rfl⟩ := hnames name List.mem_cons_self hprefix
        rw [scanEntry_tag hpos (hk.trans_lt hm)]
        obtain ⟨hlow, hhigh, hfound⟩ := ih (max mxIdx k) htail (by omega)
        refine ⟨by omega, hhigh, fun hmem hone => ?_⟩
        rcases List.mem_cons.mp hmem with heq | hmem
        · have := tag_injective base heq
          omega
        · exact hfound hmem hone
      · rw [ scanEntry_of_not_prefix hprefix]
        obtain ⟨hlow, hhigh, hfound⟩ := ih mxIdx htail hle
        refine ⟨hlow, hhigh, fun hmem => ?_⟩
        rcases List.mem_cons.mp hmem with heq | hmem
        · exact absurd (heq ▸ prefix_tag base m) hprefix
        · exact hfound hmem

/-- With the numbers one to `m` in the directory, the scan ends with `m`. -/
theorem scan_eq {base : Name} {m : Nat} (hm : m < intMax) {names : List Name}
    (hnames : NumberedUpTo base m names) (hlast : 1 ≤ m → tag base m ∈ names) :
    scan base names = m := by
  obtain ⟨hlow, hhigh, hfound⟩ := foldl_scanEntry hm names 0 hnames (by omega)
  rw [scan]
  by_cases hone : 1 ≤ m
  · have := hfound (hlast hone) hone
    omega
  · omega

/-! ### The directory -/

/-- The inode that number `k` has when the numbers from `gap` on have been moved up by one. -/
def slot (older : List Nat) (gap k : Nat) : Option Nat :=
  if k < gap then older[k - 1]? else if k = gap then none else older[k - 2]?

/-- The rotated logs are `older`, with a gap, and the current log is `cur`. Nothing else has changed
since the start, when the directory was `fs₀`. -/
structure Placed (base : Name) (fs₀ fs : Dir) (older : List Nat) (cur : Option Nat) (gap : Nat) :
    Prop where
  base_inode : fs.inode base = cur
  tag_inode : ∀ k, 1 ≤ k → fs.inode (tag base k) = slot older gap k
  tagged : ∀ name, base ++ [46] <+: name → (fs.inode name).isSome →
    ∃ k, 1 ≤ k ∧ name = tag base k
  others : ∀ name, name ≠ base → ¬base ++ [46] <+: name → fs.inode name = fs₀.inode name
  content : ∀ inode, inode < fs₀.fresh → fs.content inode = fs₀.content inode
  fresh_le : fs₀.fresh ≤ fs.fresh
  own : ∀ inode ∈ older ++ cur.toList, fs₀.fresh ≤ inode ∧ inode < fs.fresh
  nodup : (older ++ cur.toList).Nodup

/-- A directory in which neither the log nor a name that continues it with a dot occurs. -/
def Clean (base : Name) (fs : Dir) : Prop :=
  ∀ name ∈ entries fs, name ≠ base ∧ ¬base ++ [46] <+: name

theorem mem_entries_of_isSome {fs : Dir} {name : Name} (hname : (fs.inode name).isSome) :
    name ∈ entries fs :=
  Multiset.mem_add.mpr (Or.inl (Finmap.mem_keys.mpr (Fs.mem_dir_iff.mpr hname)))

theorem Clean.inode_eq_none {base : Name} {fs : Dir} (hclean : Clean base fs) {name : Name}
    (hname : name = base ∨ base ++ [46] <+: name) : fs.inode name = none := by
  by_contra hsome
  have hmem := mem_entries_of_isSome (Option.isSome_iff_ne_none.mpr hsome)
  obtain ⟨hbase, hprefix⟩ := hclean name hmem
  rcases hname with heq | htagged
  · exact hbase heq
  · exact hprefix htagged

theorem Clean.placed {base : Name} {fs : Dir} (hclean : Clean base fs) :
    Placed base fs fs [] none 1 where
  base_inode := hclean.inode_eq_none (Or.inl rfl)
  tag_inode k hk := by
    rw [hclean.inode_eq_none (Or.inr (prefix_tag base k)), slot]
    split_ifs <;> simp
  tagged name hprefix hsome := by
    rw [hclean.inode_eq_none (Or.inr hprefix)] at hsome
    cases hsome
  others _ _ _ := rfl
  content _ _ := rfl
  fresh_le := le_refl _
  own _ hmem := absurd hmem List.not_mem_nil
  nodup := List.nodup_nil

theorem slot_full (older : List Nat) {k : Nat} (hk : 1 ≤ k) :
    slot older (older.length + 1) k = older[k - 1]? := by
  unfold slot
  split_ifs with hlt heq
  · rfl
  · rw [List.getElem?_eq_none (by omega)]
  · rw [List.getElem?_eq_none (by omega), List.getElem?_eq_none (by omega)]

section Placed

variable {base : Name} {fs₀ fs : Dir} {older : List Nat} {cur : Option Nat} {gap : Nat}

/-- The scan finds the number of rotated logs, whatever the order of the directory. -/
theorem Placed.scan_eq (hplaced : Placed base fs₀ fs older cur (older.length + 1))
    (hclean : Clean base fs₀) (hm : older.length < intMax) {names : List Name}
    (hnames : (names : Multiset Name) = entries fs) : scan base names = older.length := by
  have hmem : ∀ name, name ∈ names ↔ name ∈ entries fs := fun name => by
    rw [← hnames, Multiset.mem_coe]
  refine Logger.scan_eq hm ?_ ?_
  · intro name hname hprefix
    rcases Multiset.mem_add.mp ((hmem name).mp hname) with hkey | hdots
    · have hsome := Fs.mem_dir_iff.mp (Finmap.mem_keys.mp hkey)
      obtain ⟨k, hpos, rfl⟩ := hplaced.tagged name hprefix hsome
      refine ⟨k, hpos, ?_, rfl⟩
      rw [hplaced.tag_inode k hpos, slot_full older hpos] at hsome
      have hlt : k - 1 < older.length := by simpa using hsome
      omega
    · exact absurd hprefix (hclean name (Multiset.mem_add.mpr (Or.inr hdots))).2
  · intro hone
    refine (hmem _).mpr (mem_entries_of_isSome ?_)
    rw [hplaced.tag_inode _ hone, slot_full older hone]
    simp
    omega

/-- A file of the logger gets a number that is free. -/
theorem Placed.rename (hplaced : Placed base fs₀ fs older cur gap) {old : Name} {inode j : Nat}
    (hold : fs.inode old = some inode) (hown : old = base ∨ base ++ [46] <+: old)
    (hj : 1 ≤ j) (hfree : fs.inode (tag base j) = none) {older' : List Nat} {cur' : Option Nat}
    {gap' : Nat} (hbase : (fs.rename old (tag base j)).inode base = cur')
    (htags : ∀ k, 1 ≤ k → (fs.rename old (tag base j)).inode (tag base k) = slot older' gap' k)
    (hperm : (older' ++ cur'.toList).Perm (older ++ cur.toList)) :
    Placed base fs₀ (fs.rename old (tag base j)) older' cur' gap' := by
  have hne : old ≠ tag base j := by
    rintro rfl
    rw [hfree] at hold
    cases hold
  have hrename := Fs.rename_inode hold (by rw [hfree]; simp) hne
  refine ⟨hbase, htags, ?_, ?_, ?_, ?_, ?_, hperm.nodup_iff.mpr hplaced.nodup⟩
  · intro name hprefix hsome
    rw [hrename] at hsome
    split_ifs at hsome with hisNew hisOld
    · exact ⟨j, hj, hisNew⟩
    · cases hsome
    · exact hplaced.tagged name hprefix hsome
  · intro name hnotBase hnotTagged
    have hnotNew : name ≠ tag base j := fun heq => hnotTagged (heq ▸ prefix_tag base j)
    have hnotOld : name ≠ old := by
      rintro rfl
      exact hown.elim hnotBase hnotTagged
    rw [hrename, if_neg hnotNew, if_neg hnotOld, hplaced.others name hnotBase hnotTagged]
  · rw [Fs.rename_content]
    exact hplaced.content
  · rw [Fs.rename_fresh]
    exact hplaced.fresh_le
  · rw [Fs.rename_fresh]
    exact fun inode hmem => hplaced.own inode (hperm.mem_iff.mp hmem)

/-- One round of the renaming loop moves the gap down. -/
theorem Placed.shift {i : Nat} (hplaced : Placed base fs₀ fs older cur (i + 1))
    (hlength : base.length ≤ 240) (hpos : 1 ≤ i) (hi : i ≤ older.length) (hint : i + 1 < 2 ^ 31) :
    Placed base fs₀ (shift base i fs) older cur i := by
  rw [Logger.shift, numbered_eq_tag hlength hint, numbered_eq_tag hlength (by omega)]
  obtain ⟨inode, hinode⟩ : ∃ inode, older[i - 1]? = some inode :=
    ⟨_, List.getElem?_eq_getElem (by omega)⟩
  have hold : fs.inode (tag base i) = some inode := by
    rw [hplaced.tag_inode i hpos, slot, if_pos (by omega), hinode]
  have hfree : fs.inode (tag base (i + 1)) = none := by
    rw [hplaced.tag_inode (i + 1) (by omega), slot, if_neg (by omega), if_pos rfl]
  have hrename := Fs.rename_inode hold (by rw [hfree]; simp)
    ((tag_injective base).ne (by omega : i ≠ i + 1))
  refine hplaced.rename hold (Or.inr (prefix_tag base i)) (by omega) hfree ?_ ?_ (.refl _)
  · rw [hrename, if_neg (tag_ne_base base _).symm, if_neg (tag_ne_base base _).symm,
      hplaced.base_inode]
  · intro k hk
    simp only [hrename, (tag_injective base).eq_iff, hplaced.tag_inode k hk]
    unfold slot
    by_cases hnew : k = i + 1
    · subst hnew
      rw [if_pos rfl, if_neg (by omega), if_neg (by omega), ← hinode]
      rfl
    · rw [if_neg hnew]
      split_ifs <;> first | rfl | omega

/-- The current log becomes number one. -/
theorem Placed.shiftBase {inode : Nat} (hplaced : Placed base fs₀ fs older (some inode) 1)
    (hlength : base.length ≤ 240) :
    Placed base fs₀ (shiftBase base fs) (inode :: older) none (older.length + 2) := by
  rw [Logger.shiftBase, numbered_eq_tag hlength (by decide)]
  have hfree : fs.inode (tag base 1) = none := by
    rw [hplaced.tag_inode 1 (le_refl 1), slot, if_neg (by omega), if_pos rfl]
  have hrename := Fs.rename_inode hplaced.base_inode (by rw [hfree]; simp)
    (tag_ne_base base 1).symm
  refine hplaced.rename hplaced.base_inode (Or.inl rfl) (le_refl 1) hfree ?_ ?_ ?_
  · rw [hrename, if_neg (tag_ne_base base 1).symm, if_pos rfl]
  · intro k hk
    have hfull : slot (inode :: older) (older.length + 2) k = (inode :: older)[k - 1]? :=
      slot_full (inode :: older) hk
    simp only [hrename, (tag_injective base).eq_iff, if_neg (tag_ne_base base k),
      hplaced.tag_inode k hk, hfull]
    unfold slot
    obtain rfl | ⟨k, rfl⟩ : k = 1 ∨ ∃ j, k = j + 2 := by
      rcases k with _ | _ | k
      · omega
      · exact Or.inl rfl
      · exact Or.inr ⟨k, rfl⟩
    · rfl
    · rw [if_neg (by omega), if_neg (by omega), if_neg (by omega)]
      rfl
  · simpa using (List.perm_append_singleton inode older).symm

/-- What the logs hold, the oldest first. -/
def stream (fs : Dir) (older : List Nat) (cur : Option Nat) : List Byte :=
  (older.reverse ++ cur.toList).flatMap fs.content

theorem stream_shift (i : Nat) :
    stream (Logger.shift base i fs) older cur = stream fs older cur := by
  rw [stream, Logger.shift, Fs.rename_content, stream]

theorem stream_shiftBase (inode : Nat) :
    stream (Logger.shiftBase base fs) (inode :: older) none = stream fs older (some inode) := by
  rw [stream, Logger.shiftBase, Fs.rename_content, stream]
  simp

/-- The log is opened where there is none: it is a new, empty file. -/
theorem Placed.openCreate (hplaced : Placed base fs₀ fs older none gap) :
    (fs.openCreate base).1 = ⟨fs.fresh, 0⟩
      ∧ Placed base fs₀ (fs.openCreate base).2 older (some fs.fresh) gap
      ∧ (fs.openCreate base).2.content fs.fresh = []
      ∧ stream (fs.openCreate base).2 older (some fs.fresh) = stream fs older none := by
  obtain ⟨hfile, hcontent, hfresh, hinode⟩ :=
    Fs.openCreate_of_inode_eq_none hplaced.base_inode
  have hown : ∀ inode ∈ older, fs₀.fresh ≤ inode ∧ inode < fs.fresh := fun inode hmem =>
    hplaced.own inode (List.mem_append_left _ hmem)
  have hkeeps : ∀ inode, inode < fs.fresh →
      (fs.openCreate base).2.content inode = fs.content inode := by
    intro inode hlt
    rw [hcontent, Function.update_of_ne hlt.ne]
  have hempty : (fs.openCreate base).2.content fs.fresh = [] := by
    rw [hcontent, Function.update_self]
  refine ⟨hfile, ⟨?_, ?_, ?_, ?_, ?_, ?_, ?_, ?_⟩, hempty, ?_⟩
  · rw [hinode, if_pos rfl]
  · intro k hk
    rw [hinode, if_neg (tag_ne_base base k), hplaced.tag_inode k hk]
  · intro name hprefix hsome
    rw [hinode] at hsome
    split_ifs at hsome with hbase
    · subst hbase
      obtain ⟨rest, hrest⟩ := hprefix
      have hlength := congrArg List.length hrest
      simp only [List.length_append, List.length_cons] at hlength
      omega
    · exact hplaced.tagged name hprefix hsome
  · intro name hbase hprefix
    rw [hinode, if_neg hbase, hplaced.others name hbase hprefix]
  · intro inode hlt
    rw [hkeeps inode (hlt.trans_le hplaced.fresh_le), hplaced.content inode hlt]
  · rw [hfresh]
    exact hplaced.fresh_le.trans (Nat.le_succ _)
  · intro inode hmem
    rw [hfresh]
    rcases List.mem_append.mp hmem with hold | hnew
    · exact ⟨(hown inode hold).1, (hown inode hold).2.trans (Nat.lt_succ_self _)⟩
    · obtain rfl := List.mem_singleton.mp hnew
      exact ⟨hplaced.fresh_le, Nat.lt_succ_self _⟩
  · have hnodup : older.Nodup := by simpa using hplaced.nodup
    refine hnodup.append (List.nodup_singleton _) ?_
    intro inode hold hnew
    obtain rfl := List.mem_singleton.mp hnew
    exact absurd (hown _ hold).2 (lt_irrefl _)
  · have hsame : older.reverse.flatMap (fs.openCreate base).2.content
        = older.reverse.flatMap fs.content := by
      refine List.flatMap_congr fun inode hmem => hkeeps inode ?_
      exact (hown inode (List.mem_reverse.mp hmem)).2
    simp [stream, List.flatMap_append, hsame, hempty]

/-- A write at the end of the current log adds to the end of what the logs hold. -/
theorem Placed.write {inode : Nat} (hplaced : Placed base fs₀ fs older (some inode) gap)
    (bytes : List Byte) :
    let file : File := ⟨inode, (fs.content inode).length⟩
    (fs.write file bytes).1 = ⟨inode, ((fs.write file bytes).2.content inode).length⟩
      ∧ Placed base fs₀ (fs.write file bytes).2 older (some inode) gap
      ∧ stream (fs.write file bytes).2 older (some inode)
        = stream fs older (some inode) ++ bytes := by
  intro file
  have hcontent : (fs.write file bytes).2.content
      = Function.update fs.content inode (fs.content inode ++ bytes) := by
    simp [Fs.write, file, List.drop_of_length_le (Nat.le_add_right (fs.content inode).length _)]
  have hown := hplaced.own inode (by simp)
  have hnotin : inode ∉ older := by
    have hnodup := hplaced.nodup
    rw [Option.toList_some, List.nodup_append] at hnodup
    exact fun hmem => hnodup.2.2 inode hmem inode (List.mem_singleton_self _) rfl
  refine ⟨?_, ⟨hplaced.base_inode, hplaced.tag_inode, hplaced.tagged, hplaced.others, ?_,
    hplaced.fresh_le, hplaced.own, hplaced.nodup⟩, ?_⟩
  · rw [hcontent, Function.update_self, List.length_append]
    rfl
  · intro other hlt
    rw [hcontent, Function.update_of_ne (by omega), hplaced.content other hlt]
  · have hsame : older.reverse.flatMap (fs.write file bytes).2.content
        = older.reverse.flatMap fs.content := by
      refine List.flatMap_congr fun other hmem => ?_
      rw [hcontent, Function.update_of_ne]
      rintro rfl
      exact hnotin (List.mem_reverse.mp hmem)
    have hcur : (fs.write file bytes).2.content inode = fs.content inode ++ bytes := by
      rw [hcontent, Function.update_self]
    simp [stream, List.flatMap_append, hsame, hcur]

end Placed

end Acos.Logger
