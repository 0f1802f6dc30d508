import Acos.Lib.DirTree

/-!
# The walk of the job server

`walk_dir` reads a directory entry by entry: it skips `.` and `..`, walks into a subdirectory, and
starts a watcher for any other entry that is executable. It leaves the directory at the first entry
that is not, so what stands behind a file without execute bits is never looked at.
-/

namespace Acos.Jobserver

open CString DirTree

def maxPathLen : Nat := 1024

/-- How a call of `walk_dir` ends. A call that has not ended yet is running. -/
inductive Ended where
  | returned
  | exited (message : String)
  | running
  deriving DecidableEq

/-- The files `run_watcher` was called with so far, in order. -/
structure Walk where
  started : List Name
  ended : Ended
  deriving DecidableEq

/-- The rest of the code is executed if the first part returns. -/
def Walk.andThen (first next : Walk) : Walk :=
  match first.ended with
  | .returned => ⟨first.started ++ next.started, next.ended⟩
  | _ => first

/-- `S_IXUSR`, `S_IXGRP` and `S_IXOTH`. -/
def executable (mode : BitVec 32) : Bool :=
  mode &&& 0o100 != 0 || mode &&& 0o10 != 0 || mode &&& 0o1 != 0

/-- `stat`. The walk asks for entries that are no directories; a directory would have all execute
bits. -/
def stat (root : Listing) (file : Name) : Option (BitVec 32) :=
  (root.resolve file).map fun
    | .file mode => mode
    | .dir _ => 0o40755

/-- `check_exec`. -/
def checkExec (root : Listing) (file : Name) : Except String Bool :=
  match stat root file with
  | none => .error "Error stat"
  | some mode => .ok (executable mode)

/-- The loop of `walk_dir`, for a callee that walks into the subdirectories. -/
def walkEntries (root : Listing) (walkDir : Name → Walk) (curDir : Name) : List Dirent → Walk
  | [] => ⟨[], .returned⟩
  | inode :: rest =>
      if inode.name = dot ∨ inode.name = dotdot then walkEntries root walkDir curDir rest
      else
        let curPath := snprintf maxPathLen (curDir ++ slash :: inode.name)
        if inode.isDir then (walkDir curPath).andThen (walkEntries root walkDir curDir rest)
        else
          match checkExec root curPath with
          | .error message => ⟨[], .exited message⟩
          | .ok false => ⟨[], .returned⟩
          | .ok true => Walk.andThen ⟨[curPath], .returned⟩ (walkEntries root walkDir curDir rest)

/-- `walk_dir`, as far as `fuel` nested calls go. `opendir` of a directory that exists is assumed to
succeed, although every early return of the loop leaves a directory open. -/
def walkDir (root : Listing) : (fuel : Nat) → Name → Walk
  | 0, _ => ⟨[], .running⟩
  | fuel + 1, curDir =>
      match root.resolve curDir with
      | some (.dir entries) => walkEntries root (walkDir root fuel) curDir entries.dirents
      | _ => ⟨[], .exited "Error opening directory"⟩

/-! ### What is started -/

/-- The files a walk starts, by the entries alone. -/
def reached (path : Name) : Listing → List Name
  | .nil => []
  | .dots _ rest => reached path rest
  | .file name mode rest => if executable mode then join path name :: reached path rest else []
  | .dir name entries rest => reached (join path name) entries ++ reached path rest

theorem snprintf_of_lt {text : Name} (hfit : text.length < maxPathLen) :
    snprintf maxPathLen text = text :=
  List.take_of_length_le (Nat.le_sub_one_of_lt hfit)

theorem walkEntries_eq (root : Listing) {listing : Listing} (hlisting : listing.WellFormed)
    {path : Name} (hfit : listing.PathsFit maxPathLen path) {whole : Listing}
    (hwhole : root.resolve path = some (.dir whole)) (hwithin : listing.Within whole) {fuel : Nat}
    (hfuel : listing.depth ≤ fuel) :
    walkEntries root (walkDir root fuel) path listing.dirents
      = ⟨reached path listing, .returned⟩ := by
  -- on the entries; a subdirectory is a listing of its own, walked with less fuel
  induction listing generalizing path whole fuel with
  | nil => rfl
  | dots up rest ih =>
      have hname : (if up then dotdot else dot) = dot ∨ (if up then dotdot else dot) = dotdot := by
        cases up <;> simp
      rw [Listing.dirents, walkEntries, if_pos hname]
      exact ih hlisting hfit hwhole hwithin hfuel
  | file name mode rest ih =>
      obtain ⟨hvalid, _, hrest⟩ := hlisting
      obtain ⟨hlength, hfitrest⟩ := hfit
      have hpath : snprintf maxPathLen (path ++ slash :: name) = join path name :=
        snprintf_of_lt hlength
      obtain ⟨hchild, hwithin⟩ := hwithin
      have hcheck : checkExec root (join path name) = .ok (executable mode) := by
        rw [checkExec, stat, Listing.resolve_join hwhole hvalid, hchild]
        rfl
      rw [Listing.dirents, walkEntries, if_neg (not_or.mpr ⟨hvalid.ne_dot, hvalid.ne_dotdot⟩)]
      simp only [hpath, Bool.false_eq_true, if_false, hcheck]
      cases hmode : executable mode with
      | false => simp [reached, hmode]
      | true => simp [reached, hmode, ih hrest hfitrest hwhole hwithin hfuel, Walk.andThen]
  | dir name entries rest ihentries ih =>
      obtain ⟨hvalid, _, hentries, hrest⟩ := hlisting
      obtain ⟨hlength, hfitentries, hfitrest⟩ := hfit
      have hpath : snprintf maxPathLen (path ++ slash :: name) = join path name :=
        snprintf_of_lt hlength
      obtain ⟨hchild, hwithin⟩ := hwithin
      have hresolve : root.resolve (join path name) = some (.dir entries) :=
        (Listing.resolve_join hwhole hvalid).trans hchild
      have hdepth := max_le_iff.mp hfuel
      obtain ⟨fuel, rfl⟩ : ∃ n, fuel = n + 1 := ⟨fuel - 1, by omega⟩
      have hinner : walkDir root (fuel + 1) (join path name)
          = ⟨reached (join path name) entries, .returned⟩ := by
        rw [walkDir, hresolve]
        exact ihentries hentries hfitentries hresolve hentries.within (by omega)
      rw [Listing.dirents, walkEntries, if_neg (not_or.mpr ⟨hvalid.ne_dot, hvalid.ne_dotdot⟩)]
      simp only [hpath, if_true, hinner, ih hrest hfitrest hwhole hwithin hdepth.2]
      rfl

/-- With enough fuel the walk of a tree returns. -/
theorem walkDir_eq (tree : Tree) (hfit : tree.listing.PathsFit maxPathLen dot) {fuel : Nat}
    (hfuel : tree.listing.depth < fuel) :
    walkDir tree.listing fuel dot = ⟨reached dot tree.listing, .returned⟩ := by
  have hresolve : tree.listing.resolve dot = some (.dir tree.listing) := rfl
  obtain ⟨fuel, rfl⟩ : ∃ n, fuel = n + 1 := ⟨fuel - 1, by omega⟩
  rw [walkDir, hresolve]
  exact walkEntries_eq _ tree.wellFormed hfit hresolve tree.wellFormed.within (by omega)

/-! ### What is missed -/

/-- Behind a file that is not executable, no entry of the same directory is or contains an
executable file. -/
def NothingHidden : Listing → Prop
  | .nil => True
  | .dots _ rest => NothingHidden rest
  | .file _ mode rest =>
      (executable mode = false → rest.filesWith executable [] = []) ∧ NothingHidden rest
  | .dir _ entries rest => NothingHidden entries ∧ NothingHidden rest

/-- Where the directory is plays no role for whether it contains such a file. -/
theorem filesWith_eq_nil_iff (p : BitVec 32 → Bool) (path path' : Name) (listing : Listing) :
    listing.filesWith p path = [] ↔ listing.filesWith p path' = [] := by
  induction listing generalizing path path' with
  | nil => exact Iff.rfl
  | dots _ rest ih => exact ih path path'
  | file name mode rest ih =>
      rw [Listing.filesWith, Listing.filesWith]
      split
      · simp
      · exact ih path path'
  | dir name entries rest ihentries ih =>
      simp only [Listing.filesWith, List.append_eq_nil_iff]
      rw [ihentries (join path name) (join path' name), ih path path']

/-- A walk starts nothing but executable files, each once and in the order of the entries. -/
theorem reached_sublist (path : Name) (listing : Listing) :
    (reached path listing).Sublist (listing.filesWith executable path) := by
  induction listing generalizing path with
  | nil => exact List.Sublist.refl []
  | dots _ rest ih => exact ih path
  | file name mode rest ih =>
      rw [reached, Listing.filesWith]
      split
      · exact (ih path).cons_cons _
      · exact List.nil_sublist _
  | dir name entries rest ihentries ih => exact (ihentries _).append (ih path)

theorem nothingHidden_of_filesWith_eq_nil {path : Name} {listing : Listing}
    (hnone : listing.filesWith executable path = []) : NothingHidden listing := by
  induction listing generalizing path with
  | nil => trivial
  | dots _ rest ih => exact ih hnone
  | file name mode rest ih =>
      rw [Listing.filesWith] at hnone
      split at hnone
      · exact absurd hnone (List.cons_ne_nil _ _)
      · exact ⟨fun _ => (filesWith_eq_nil_iff _ _ _ _).mp hnone, ih hnone⟩
  | dir name entries rest ihentries ih =>
      obtain ⟨hentries, hrest⟩ := List.append_eq_nil_iff.mp hnone
      exact ⟨ihentries hentries, ih hrest⟩

theorem append_eq_append_iff_of_sublist {α : Type} {a b a' b' : List α} (ha : a.Sublist a')
    (hb : b.Sublist b') : a ++ b = a' ++ b' ↔ a = a' ∧ b = b' := by
  constructor
  · intro heq
    have hlength := congrArg List.length heq
    rw [List.length_append, List.length_append] at hlength
    have hle := ha.length_le
    have hle' := hb.length_le
    exact ⟨ha.eq_of_length (by omega), hb.eq_of_length (by omega)⟩
  · rintro ⟨rfl, rfl⟩
    rfl

/-- A walk starts every executable file just if none is hidden. -/
theorem reached_eq_iff (path : Name) (listing : Listing) :
    reached path listing = listing.filesWith executable path ↔ NothingHidden listing := by
  induction listing generalizing path with
  | nil => exact iff_of_true rfl trivial
  | dots _ rest ih => exact ih path
  | file name mode rest ih =>
      rw [reached, Listing.filesWith, NothingHidden]
      cases hmode : executable mode with
      | true => simp [ih path]
      | false =>
          simp only [Bool.false_eq_true, if_false, forall_const]
          rw [eq_comm, filesWith_eq_nil_iff _ path []]
          exact ⟨fun hnone => ⟨hnone, nothingHidden_of_filesWith_eq_nil hnone⟩, And.left⟩
  | dir name entries rest ihentries ih =>
      rw [reached, Listing.filesWith, NothingHidden,
        append_eq_append_iff_of_sublist (reached_sublist _ _) (reached_sublist _ _),
        ihentries (join path name), ih path]

/-- The walk returns, and it has started every executable file of the tree, each once. -/
structure RunsEvery (root : Listing) (walk : Walk) : Prop where
  returned : walk.ended = .returned
  started : walk.started.Perm (root.filesWith executable dot)
  once : walk.started.Nodup

/-- **Every executable once.** For every tree and every order of its entries, the walk starts every
executable file once just if no directory has an executable file, or a directory with one, behind a
file that is not executable. -/
theorem runsEvery_iff (tree : Tree) (hfit : tree.listing.PathsFit maxPathLen dot) {fuel : Nat}
    (hfuel : tree.listing.depth < fuel) :
    RunsEvery tree.listing (walkDir tree.listing fuel dot) ↔ NothingHidden tree.listing := by
  rw [walkDir_eq tree hfit hfuel, ← reached_eq_iff dot]
  constructor
  · intro hruns
    exact (reached_sublist dot tree.listing).eq_of_length hruns.started.length_eq
  · intro heq
    refine ⟨rfl, .of_eq heq, ?_⟩
    change (reached dot tree.listing).Nodup
    rw [heq]
    exact tree.wellFormed.nodup_filesWith executable dot

/-- A directory with a program `run` and a text `n`, where the program is read first. -/
def programFirst : Tree where
  listing := .dots false (.dots true (.file [114, 117, 110] 0o755 (.file [110] 0o644 .nil)))
  wellFormed := ⟨⟨by decide, by decide, by decide, by decide⟩, by decide,
    ⟨by decide, by decide, by decide, by decide⟩, by decide, trivial⟩

theorem runsEvery_programFirst :
    RunsEvery programFirst.listing (walkDir programFirst.listing 1 dot) := by
  have hfit : programFirst.listing.PathsFit maxPathLen dot := ⟨by decide, by decide, trivial⟩
  refine (runsEvery_iff programFirst hfit (by decide)).mpr ⟨?_, ?_, trivial⟩
  · exact fun hmode => absurd hmode (by decide)
  · exact fun _ => rfl

/-- The same files, where the text is read first: the program is not started. -/
theorem runsEvery_fails_fileFirst :
    ∃ tree : Tree, tree.listing = .file [110] 0o644 (.file [114, 117, 110] 0o755 .nil) ∧
      (walkDir tree.listing 1 dot) = ⟨[], .returned⟩ ∧
      tree.listing.filesWith executable dot = [[46, 47, 114, 117, 110]] ∧
      ¬ RunsEvery tree.listing (walkDir tree.listing 1 dot) := by
  let tree : Tree :=
    { listing := .file [110] 0o644 (.file [114, 117, 110] 0o755 .nil)
      wellFormed := ⟨⟨by decide, by decide, by decide, by decide⟩, by decide,
        ⟨by decide, by decide, by decide, by decide⟩, by decide, trivial⟩ }
  have hwalk : walkDir tree.listing 1 dot = ⟨[], .returned⟩ := by decide +kernel
  have hfiles : tree.listing.filesWith executable dot = [[46, 47, 114, 117, 110]] := by
    decide +kernel
  refine ⟨tree, rfl, hwalk, hfiles, fun hruns => ?_⟩
  have hperm := hruns.started
  rw [hwalk, hfiles] at hperm
  exact absurd hperm.length_eq (by decide)

end Acos.Jobserver
