import Acos.Lib.CString

/-!
# Directory trees

A tree of directories and regular files without links. A directory is given by what `readdir`
returns, entry by entry, so that two trees may differ in nothing but the order of their entries. A
path is a byte string, and the kernel reads it component by component.
-/

namespace DirTree

open CString (Byte)

abbrev Name := List Byte

def slash : Byte := 47

def dot : Name := [46]

def dotdot : Name := [46, 46]

/-- The entries of a directory in the order in which they are read. -/
inductive Listing where
  | nil
  /-- The entry `..` or the entry `.`. -/
  | dots (up : Bool) (rest : Listing)
  | file (name : Name) (mode : BitVec 32) (rest : Listing)
  | dir (name : Name) (entries : Listing) (rest : Listing)
  deriving DecidableEq

inductive Inode where
  | file (mode : BitVec 32)
  | dir (entries : Listing)
  deriving DecidableEq

structure Dirent where
  name : Name
  isDir : Bool

/-- A path one component longer. -/
def join (path name : Name) : Name := path ++ slash :: name

namespace Listing

def dirents : Listing → List Dirent
  | nil => []
  | dots up rest => ⟨if up then dotdot else dot, true⟩ :: rest.dirents
  | file name _ rest => ⟨name, false⟩ :: rest.dirents
  | dir name _ rest => ⟨name, true⟩ :: rest.dirents

def names : Listing → List Name
  | nil => []
  | dots _ rest => rest.names
  | file name _ rest | dir name _ rest => name :: rest.names

def child (wanted : Name) : Listing → Option Inode
  | nil => none
  | dots _ rest => rest.child wanted
  | file name mode rest => if wanted = name then some (.file mode) else rest.child wanted
  | dir name entries rest => if wanted = name then some (.dir entries) else rest.child wanted

/-- How many directories are inside each other. -/
def depth : Listing → Nat
  | nil => 0
  | dots _ rest | file _ _ rest => rest.depth
  | dir _ entries rest => max (entries.depth + 1) rest.depth

/-- The paths of the files whose mode satisfies `p`, from a directory at `path`. -/
def filesWith (p : BitVec 32 → Bool) (path : Name) : Listing → List Name
  | nil => []
  | dots _ rest => rest.filesWith p path
  | file name mode rest =>
      if p mode then join path name :: rest.filesWith p path else rest.filesWith p path
  | dir name entries rest => entries.filesWith p (join path name) ++ rest.filesWith p path

/-- All paths from a directory at `path` are shorter than the limit. -/
def PathsFit (limit : Nat) (path : Name) : Listing → Prop
  | nil => True
  | dots _ rest => rest.PathsFit limit path
  | file name _ rest => (join path name).length < limit ∧ rest.PathsFit limit path
  | dir name entries rest =>
      (join path name).length < limit ∧ entries.PathsFit limit (join path name)
        ∧ rest.PathsFit limit path

/-! ### Resolution -/

/-- The names to follow from the root, with `.` and `..` worked off. -/
def normalise (components : List Name) : List Name :=
  components.foldl (fun names name =>
    if name = [] ∨ name = dot then names
    else if name = dotdot then names.dropLast
    else names ++ [name]) []

def find : List Name → Listing → Option Inode
  | [], listing => some (.dir listing)
  | name :: names, listing =>
      match listing.child name with
      | none => none
      | some (.file mode) => if names = [] then some (.file mode) else none
      | some (.dir entries) => find names entries

/-- What the path leads to, from a working directory with this listing. -/
def resolve (root : Listing) (path : Name) : Option Inode :=
  find (normalise (path.splitOn slash)) root

end Listing

/-- A name that can stand in a directory. -/
structure ValidName (name : Name) : Prop where
  ne_nil : name ≠ []
  no_slash : slash ∉ name
  ne_dot : name ≠ dot
  ne_dotdot : name ≠ dotdot

/-- The names are valid and no directory has one of them twice. -/
def Listing.WellFormed : Listing → Prop
  | nil => True
  | dots _ rest => rest.WellFormed
  | file name _ rest => ValidName name ∧ name ∉ rest.names ∧ rest.WellFormed
  | dir name entries rest =>
      ValidName name ∧ name ∉ rest.names ∧ entries.WellFormed ∧ rest.WellFormed

structure Tree where
  listing : Listing
  wellFormed : listing.WellFormed

namespace Listing

/-! ### Entries of a directory -/

/-- The entries of `rest` are found in `listing` under their names. -/
def Within (rest listing : Listing) : Prop :=
  match rest with
  | nil => True
  | dots _ rest => rest.Within listing
  | file name mode rest => listing.child name = some (.file mode) ∧ rest.Within listing
  | dir name entries rest => listing.child name = some (.dir entries) ∧ rest.Within listing

/-- The entries of `rest` are found in any listing that has the same children of their names. -/
theorem Within.congr {rest listing listing' : Listing} (hwithin : rest.Within listing)
    (hchild : ∀ name ∈ rest.names, listing'.child name = listing.child name) :
    rest.Within listing' := by
  induction rest with
  | nil => trivial
  | dots _ rest ih => exact ih hwithin hchild
  | file name _ rest ih | dir name _ rest _ ih =>
      refine ⟨(hchild name List.mem_cons_self).trans hwithin.1, ih hwithin.2 ?_⟩
      exact fun other hother => hchild other (List.mem_cons_of_mem name hother)

/-- Distinct names find their own entries. -/
theorem WellFormed.within {listing : Listing} (hlisting : listing.WellFormed) :
    listing.Within listing := by
  induction listing with
  | nil => trivial
  | dots up rest ih => exact (ih hlisting).congr fun _ _ => rfl
  | file name mode rest ih =>
      obtain ⟨_, hname, hrest⟩ := hlisting
      refine ⟨if_pos rfl, (ih hrest).congr fun _ hother => ?_⟩
      exact if_neg (ne_of_mem_of_not_mem hother hname)
  | dir name entries rest _ ih =>
      obtain ⟨_, hname, _, hrest⟩ := hlisting
      refine ⟨if_pos rfl, (ih hrest).congr fun _ hother => ?_⟩
      exact if_neg (ne_of_mem_of_not_mem hother hname)

/-! ### Paths -/

theorem find_append (names : List Name) (name : Name) (root listing : Listing)
    (hfind : find names root = some (.dir listing)) :
    find (names ++ [name]) root = listing.child name := by
  induction names generalizing root with
  | nil =>
      cases hfind
      rw [List.nil_append, find]
      cases listing.child name with
      | none => rfl
      | some inode => cases inode <;> rfl
  | cons first names ih =>
      rw [List.cons_append, find]
      rw [find] at hfind
      cases hchild : root.child first with
      | none => simp [hchild] at hfind
      | some inode =>
          cases inode with
          | file mode =>
              rw [hchild] at hfind
              dsimp only at hfind
              split at hfind <;> exact nomatch hfind
          | dir entries =>
              rw [hchild] at hfind
              exact ih entries hfind

theorem normalise_append (components : List Name) {name : Name} (hname : ValidName name) :
    normalise (components ++ [name]) = normalise components ++ [name] := by
  simp [normalise, hname.ne_nil, hname.ne_dot, hname.ne_dotdot]

theorem splitOn_join (path : Name) {name : Name} (hname : slash ∉ name) :
    (join path name).splitOn slash = path.splitOn slash ++ [name] := by
  have hsingle : name.splitOn slash = [name] :=
    List.splitOnP_eq_singleton fun c hc => by
      simpa using fun heq : c = slash => hname (heq ▸ hc)
  rw [← hsingle]
  exact List.splitOnP_append_cons path name (beq_self_eq_true slash)

/-- The path of an entry leads to it. -/
theorem resolve_join {root listing : Listing} {path name : Name}
    (hpath : root.resolve path = some (.dir listing)) (hname : ValidName name) :
    root.resolve (join path name) = listing.child name := by
  rw [resolve, splitOn_join path hname.no_slash, normalise_append _ hname]
  exact find_append _ name root listing hpath

/-! ### Distinct files have distinct paths -/

/-- A path from the directory at `path` on, with the name of the entry it goes through. -/
def Through (path name full : Name) : Prop :=
  ∃ tail, full = join path name ++ tail ∧ (tail = [] ∨ tail.head? = some slash)

theorem Through.join_left {path name inner full : Name}
    (hthrough : Through (join path name) inner full) : Through path name full := by
  obtain ⟨tail, rfl, _⟩ := hthrough
  exact ⟨slash :: inner ++ tail, by simp [join], .inr rfl⟩

theorem Through.unique {path name name' full : Name} (hname : slash ∉ name)
    (hname' : slash ∉ name') (h : Through path name full) (h' : Through path name' full) :
    name = name' := by
  -- the name is what stands before the next slash
  have hcut : ∀ {name tail : Name}, slash ∉ name → (tail = [] ∨ tail.head? = some slash) →
      (name ++ tail).takeWhile (· != slash) = name := by
    intro name tail hname htail
    have hpos : ∀ c ∈ name, (c != slash) = true := fun c hc =>
      bne_iff_ne.mpr fun heq => hname (heq ▸ hc)
    rw [List.takeWhile_append_of_pos hpos]
    rcases htail with rfl | htail
    · simp
    · obtain ⟨rest, rfl⟩ := List.head?_eq_some_iff.mp htail
      simp
  obtain ⟨tail, rfl, htail⟩ := h
  obtain ⟨tail', heq, htail'⟩ := h'
  simp only [join, List.append_assoc, List.cons_append] at heq
  have hrest := List.cons_inj_right slash |>.mp (List.append_cancel_left heq)
  rw [← hcut hname htail, hrest, hcut hname' htail']

theorem exists_through {p : BitVec 32 → Bool} {listing : Listing} {path full : Name}
    (hfull : full ∈ listing.filesWith p path) : ∃ name ∈ listing.names, Through path name full := by
  induction listing generalizing path with
  | nil => exact absurd hfull List.not_mem_nil
  | dots _ rest ih => exact ih hfull
  | file name mode rest ih =>
      rw [filesWith] at hfull
      split at hfull
      · rcases List.mem_cons.mp hfull with rfl | hfull
        · exact ⟨name, List.mem_cons_self, [], by simp, .inl rfl⟩
        · obtain ⟨other, hother, hthrough⟩ := ih hfull
          exact ⟨other, List.mem_cons_of_mem name hother, hthrough⟩
      · obtain ⟨other, hother, hthrough⟩ := ih hfull
        exact ⟨other, List.mem_cons_of_mem name hother, hthrough⟩
  | dir name entries rest ihentries ih =>
      rcases List.mem_append.mp hfull with hfull | hfull
      · obtain ⟨_, _, hthrough⟩ := ihentries hfull
        exact ⟨name, List.mem_cons_self, hthrough.join_left⟩
      · obtain ⟨other, hother, hthrough⟩ := ih hfull
        exact ⟨other, List.mem_cons_of_mem name hother, hthrough⟩

theorem WellFormed.valid {listing : Listing} (hlisting : listing.WellFormed) :
    ∀ name ∈ listing.names, ValidName name := by
  induction listing with
  | nil => exact nofun
  | dots _ rest ih => exact ih hlisting
  | file name _ rest ih =>
      intro other hother
      rcases List.mem_cons.mp hother with rfl | hother
      · exact hlisting.1
      · exact ih hlisting.2.2 other hother
  | dir name _ rest _ ih =>
      intro other hother
      rcases List.mem_cons.mp hother with rfl | hother
      · exact hlisting.1
      · exact ih hlisting.2.2.2 other hother

/-- A path through one entry is not among those of the entries behind it. -/
theorem WellFormed.not_mem_filesWith {p : BitVec 32 → Bool} {rest : Listing}
    (hrest : rest.WellFormed) {path name full : Name} (hvalid : ValidName name)
    (hname : name ∉ rest.names) (hthrough : Through path name full) :
    full ∉ rest.filesWith p path := by
  intro hfull
  obtain ⟨other, hother, hthrough'⟩ := exists_through hfull
  have heq := hthrough.unique hvalid.no_slash (hrest.valid other hother).no_slash hthrough'
  exact hname (heq ▸ hother)

theorem WellFormed.nodup_filesWith (p : BitVec 32 → Bool) {listing : Listing}
    (hlisting : listing.WellFormed) (path : Name) : (listing.filesWith p path).Nodup := by
  induction listing generalizing path with
  | nil => exact List.nodup_nil
  | dots _ rest ih => exact ih hlisting path
  | file name mode rest ih =>
      obtain ⟨hvalid, hname, hrest⟩ := hlisting
      rw [filesWith]
      split
      · refine List.nodup_cons.mpr ⟨?_, ih hrest path⟩
        exact hrest.not_mem_filesWith hvalid hname ⟨[], by simp, .inl rfl⟩
      · exact ih hrest path
  | dir name entries rest ihentries ih =>
      obtain ⟨hvalid, hname, hentries, hrest⟩ := hlisting
      refine List.nodup_append.mpr ⟨ihentries hentries _, ih hrest path, ?_⟩
      rintro full hfull _ hfull' rfl
      obtain ⟨_, _, hthrough⟩ := exists_through hfull
      exact hrest.not_mem_filesWith hvalid hname hthrough.join_left hfull'

end Listing

end DirTree
