import Mathlib.Data.Finmap

/-!
# A directory of files

A directory maps names to inodes and every inode has its content, so that an open file stays the
same file when its name changes. `fresh` is an inode that no name has had yet.
-/

namespace FileSystem

variable {Name Byte : Type} [DecidableEq Name]

structure Fs (Name Byte : Type) [DecidableEq Name] where
  dir : Finmap fun _ : Name => Nat
  content : Nat → List Byte
  fresh : Nat
  lt_fresh : ∀ name inode, dir.lookup name = some inode → inode < fresh

/-- An open file and the offset of its next write. -/
structure File where
  inode : Nat
  offset : Nat
  deriving DecidableEq

namespace Fs

variable (fs : Fs Name Byte)

def inode (name : Name) : Option Nat := fs.dir.lookup name

/-- The content of a file, nothing if it is missing. -/
def read (name : Name) : List Byte := (fs.inode name).elim [] fs.content

/-- The content of a file, if there is one of this name. -/
def file (name : Name) : Option (List Byte) := (fs.inode name).map fs.content

/-- What the files of the directory hold, once for each name. -/
def contents : Multiset (List Byte) := fs.dir.keys.val.map fs.read

/-- `open` with `O_WRONLY | O_CREAT`: an existing file is neither emptied nor opened at its end. -/
def openCreate (name : Name) : File × Fs Name Byte :=
  match fs.inode name with
  | some inode => (⟨inode, 0⟩, fs)
  | none =>
      (⟨fs.fresh, 0⟩,
        { dir := fs.dir.insert name fs.fresh
          content := Function.update fs.content fs.fresh []
          fresh := fs.fresh + 1
          lt_fresh := by
            intro other inode hother
            by_cases hname : other = name
            · subst hname
              rw [Finmap.lookup_insert] at hother
              cases hother
              exact Nat.lt_succ_self _
            · rw [Finmap.lookup_insert_of_ne _ hname] at hother
              exact (fs.lt_fresh other inode hother).trans (Nat.lt_succ_self _) })

/-- `write`: the bytes replace what was at the offset. -/
def write (file : File) (bytes : List Byte) : File × Fs Name Byte :=
  let old := fs.content file.inode
  let new := old.take file.offset ++ bytes ++ old.drop (file.offset + bytes.length)
  (⟨file.inode, file.offset + bytes.length⟩,
    { fs with content := Function.update fs.content file.inode new })

/-- `rename`. It fails without a file of the old name, and does nothing if the two names are already
of one file. -/
def rename (old new : Name) : Fs Name Byte :=
  match hlookup : fs.inode old with
  | none => fs
  | some inode =>
      if fs.inode new = some inode then fs
      else
        { fs with
          dir := (fs.dir.erase old).insert new inode
          lt_fresh := by
            intro other i hother
            by_cases hname : other = new
            · subst hname
              rw [Finmap.lookup_insert] at hother
              cases hother
              exact fs.lt_fresh old inode hlookup
            · rw [Finmap.lookup_insert_of_ne _ hname] at hother
              by_cases hold : other = old
              · subst hold
                rw [Finmap.lookup_erase] at hother
                cases hother
              · rw [Finmap.lookup_erase_ne hold] at hother
                exact fs.lt_fresh other i hother }

variable {fs}

theorem inode_lt {name : Name} {inode : Nat} (hinode : fs.inode name = some inode) :
    inode < fs.fresh := fs.lt_fresh name inode hinode

theorem mem_dir_iff {name : Name} : name ∈ fs.dir ↔ (fs.inode name).isSome :=
  Finmap.lookup_isSome.symm

theorem openCreate_of_inode_eq_none {name : Name} (hnone : fs.inode name = none) :
    (fs.openCreate name).1 = ⟨fs.fresh, 0⟩
      ∧ (fs.openCreate name).2.content = Function.update fs.content fs.fresh []
      ∧ (fs.openCreate name).2.fresh = fs.fresh + 1
      ∧ ∀ other, (fs.openCreate name).2.inode other
          = if other = name then some fs.fresh else fs.inode other := by
  rw [openCreate, hnone]
  refine ⟨rfl, rfl, rfl, fun other => ?_⟩
  split_ifs with hother
  · subst hother
    exact Finmap.lookup_insert _
  · exact Finmap.lookup_insert_of_ne _ hother

theorem rename_of_inode_eq_none {old new : Name} (hnone : fs.inode old = none) :
    fs.rename old new = fs := by
  unfold rename
  split
  · rfl
  · rename_i inode hlookup
    rw [hnone] at hlookup
    cases hlookup

theorem rename_content (old new : Name) : (fs.rename old new).content = fs.content := by
  unfold rename
  split
  · rfl
  · split_ifs <;> rfl

theorem rename_fresh (old new : Name) : (fs.rename old new).fresh = fs.fresh := by
  unfold rename
  split
  · rfl
  · split_ifs <;> rfl

/-- A file that has the old name only gets the new one. -/
theorem rename_inode {old new : Name} {inode : Nat} (hold : fs.inode old = some inode)
    (hnew : fs.inode new ≠ some inode) (hne : old ≠ new) (other : Name) :
    (fs.rename old new).inode other
      = if other = new then some inode else if other = old then none else fs.inode other := by
  unfold rename
  split
  · rename_i hlookup
    rw [hold] at hlookup
    cases hlookup
  · rename_i inode' hlookup
    obtain rfl : inode' = inode := Option.some.inj (hlookup.symm.trans hold)
    rw [if_neg hnew]
    split_ifs with hisNew hisOld
    · subst hisNew
      exact Finmap.lookup_insert _
    · subst hisOld
      exact (Finmap.lookup_insert_of_ne _ hne).trans (Finmap.lookup_erase _ _)
    · exact (Finmap.lookup_insert_of_ne _ hisNew).trans (Finmap.lookup_erase_ne hisOld)

/-- A file that does not have the new name gets it, and takes the place of another one. -/
theorem rename_inode_or {old new : Name}
    (hlink : ∀ inode, fs.inode old = some inode → fs.inode new ≠ some inode) (hne : old ≠ new)
    (other : Name) :
    (fs.rename old new).inode other
      = if other = new then (fs.inode old).or (fs.inode new)
        else if other = old then none else fs.inode other := by
  cases hold : fs.inode old with
  | none =>
      rw [rename_of_inode_eq_none hold, Option.none_or]
      split_ifs with hisNew hisOld
      · rw [hisNew]
      · rw [hisOld, hold]
      · rfl
  | some inode => rw [rename_inode hold (hlink inode hold) hne, Option.some_or]

theorem read_of_inode {name : Name} {inode : Nat} (hinode : fs.inode name = some inode) :
    fs.read name = fs.content inode := by
  rw [read, hinode]
  rfl

/-- A directory with one file. -/
def single (name : Name) (bytes : List Byte) : Fs Name Byte where
  dir := Finmap.singleton name 0
  content _ := bytes
  fresh := 1
  lt_fresh other inode hinode := by
    by_cases hother : other = name
    · rw [hother, Finmap.lookup_singleton_eq, Option.some.injEq] at hinode
      exact hinode ▸ Nat.one_pos
    · rw [Finmap.lookup_eq_none.mpr (by simpa using hother)] at hinode
      cases hinode

theorem single_read (name : Name) (bytes : List Byte) : (single name bytes).read name = bytes :=
  read_of_inode Finmap.lookup_singleton_eq

theorem notMem_keys {name : Name} (hnone : fs.inode name = none) : name ∉ fs.dir.keys := by
  rw [Finmap.mem_keys, mem_dir_iff, hnone]
  exact Bool.false_ne_true

/-- Where no file has the new name, none is lost. -/
theorem contents_rename {old new : Name} (hnew : fs.inode new = none) :
    (fs.rename old new).contents = fs.contents := by
  cases hold : fs.inode old with
  | none => rw [rename_of_inode_eq_none hold]
  | some inode =>
      have hne : old ≠ new := by
        rintro rfl
        exact absurd (hold.symm.trans hnew) (Option.some_ne_none inode)
      have hrename := rename_inode hold (by rw [hnew]; exact nofun) hne
      have hread : (fs.rename old new).read new = fs.read old := by
        have hinode : (fs.rename old new).inode new = some inode := by rw [hrename, if_pos rfl]
        rw [read_of_inode hinode, read_of_inode hold, rename_content]
      have hothers : ∀ name ∈ fs.dir.keys.erase old,
          (fs.rename old new).read name = fs.read name := by
        intro name hname
        obtain ⟨hisOld, hkey⟩ := Finset.mem_erase.mp hname
        have hisNew : name ≠ new := by
          rintro rfl
          exact notMem_keys hnew hkey
        rw [read, hrename, if_neg hisNew, if_neg hisOld, rename_content, read]
      have hkeys : (fs.rename old new).dir.keys = insert new (fs.dir.keys.erase old) := by
        ext name
        rw [Finmap.mem_keys, mem_dir_iff, hrename, Finset.mem_insert, Finset.mem_erase,
          Finmap.mem_keys, mem_dir_iff]
        split_ifs with hisNew hisOld
        · simp [hisNew]
        · simp [hisOld, hne]
        · simp [hisNew, hisOld]
      have hnotin : new ∉ fs.dir.keys.erase old := fun hmem =>
        notMem_keys hnew (Finset.mem_of_mem_erase hmem)
      have hkey : old ∈ fs.dir.keys := by
        rw [Finmap.mem_keys, mem_dir_iff, hold]
        rfl
      calc (fs.rename old new).contents
          = (insert new (fs.dir.keys.erase old)).val.map (fs.rename old new).read := by
            rw [contents, hkeys]
        _ = fs.read old ::ₘ (fs.dir.keys.erase old).val.map fs.read := by
            rw [Finset.insert_val_of_notMem hnotin, Multiset.map_cons, hread,
              Multiset.map_congr rfl hothers]
        _ = (insert old (fs.dir.keys.erase old)).val.map fs.read := by
            rw [Finset.insert_val_of_notMem (Finset.notMem_erase old _), Multiset.map_cons]
        _ = fs.contents := by
            rw [Finset.insert_erase hkey, contents]

end Fs

end FileSystem
