import Acos.Shell.Kernel
import Acos.Shell.ParseResult

/-!
# The descriptors of a pipeline

The loop over the stages is followed with the descriptors it opens and closes, in the shell and in
each of the children, where all calls succeed. The stages and the pipes are numbered alike: the pipe
`i` leads from the stage `i` to the next one.
-/

namespace Acos.Shell.Pipe

open Program Descriptors

/-- The shell without a child, the shell between a fork and the end of the wait for it, or the child
it has forked. -/
inductive Role where
  | shell
  | parent (stage : Nat)
  | stage (stage : Nat)

/-- The descriptors of a process, and how many pipes and children the shell has made. -/
structure Ghost where
  fds : Fds
  pipes : Nat
  forks : Nat
  role : Role

/-- What the stage reads from. -/
def source (infile : Option Text) : Nat → Object
  | 0 => match infile with
    | some name => .infile name
    | none => .inherited 0
  | i + 1 => .readEnd i

/-- What the stage writes to. -/
def target (outfile : Option Text) (blocks i : Nat) : Object :=
  if i < blocks then .writeEnd i
  else match outfile with
    | some name => .outfile name
    | none => .inherited 1

theorem target_of_lt {blocks i : Nat} (hlt : i < blocks) (outfile : Option Text) :
    target outfile blocks i = .writeEnd i := if_pos hlt

theorem target_of_not_lt {blocks i : Nat} (hlast : ¬ i < blocks) (outfile : Option Text) :
    target outfile blocks i = match outfile with
      | some name => .outfile name
      | none => .inherited 1 := if_neg hlast

/-- No descriptor is open for writing to the pipe that feeds the stage. -/
def NoWriter (i : Nat) (fds : Fds) : Prop := ∀ j fd, j + 1 = i → fds.get fd ≠ some (.writeEnd j)

/-- The standard descriptors of the stage, which sees the end of its input. -/
structure Standard (stdin stdout : Object) (i : Nat) (fds : Fds) : Prop where
  stdin : fds.get stdinFileno = some stdin
  stdout : fds.get stdoutFileno = some stdout
  noWriter : NoWriter i fds

/-- While a stage runs, the shell keeps the read end of its pipe for the next one. -/
def Ghost.Ok (g : Ghost) : Prop :=
  match g.role with
  | .shell => True
  | .parent i => NoWriter i g.fds ∧ ∃ fd, g.fds.get fd = some (.readEnd i)
  | .stage i => NoWriter i g.fds

/-- The shell forks one child for each of the pipes and waits for it before it makes the next pipe,
and the child gets to its command with the right descriptors. -/
def wiring (infile outfile : Option Text) (blocks : Nat) :
    (c : Call) → Ghost → (Reply c → Ghost → Prop) → Prop
  | .fork, g, Q =>
      g.role = .shell ∧ g.pipes = g.forks + 1 ∧
        Q .parent { g with forks := g.forks + 1, role := .parent g.forks } ∧
        Q .child { g with role := .stage g.forks }
  | .wait, g, Q => g.Ok ∧ (∃ i, g.role = .parent i) ∧ Q () { g with role := .shell }
  | .execvp _, g, _ =>
      ∃ i, g.role = .stage i ∧ Standard (source infile i) (target outfile blocks i) i g.fds
  | .nullDereference, _, _ => False
  | .pipe, g, Q =>
      g.role = .shell ∧ Q (some (openPipe g.pipes g.fds).1)
        { g with fds := (openPipe g.pipes g.fds).2, pipes := g.pipes + 1 }
  | c, g, Q =>
      g.Ok ∧ ∃ result, effect true c g.fds = some result ∧ Q result.1 { g with fds := result.2 }

/-! ### The standard descriptors -/

section Standard

variable {stdin stdout object : Object} {i : Nat} {fds : Fds} {fd : Int}

theorem NoWriter.put (hno : NoWriter i fds) (hobject : ∀ j, j + 1 = i → object ≠ .writeEnd j) :
    NoWriter i (fds.put fd (some object)) := by
  intro j fd' hj hget
  rcases Table.get_put_eq_some hget with ⟨-, heq⟩ | ⟨-, hget⟩
  · exact hobject j hj (Option.some.inj heq)
  · exact hno j fd' hj hget

theorem NoWriter.close (hno : NoWriter i fds) : NoWriter i (fds.close fd) := by
  intro j fd' hj hget
  rcases Table.get_put_eq_some hget with ⟨-, heq⟩ | ⟨-, hget⟩
  · exact nomatch heq
  · exact hno j fd' hj hget

namespace Standard

theorem close (hstd : Standard stdin stdout i fds) (hin : fd ≠ stdinFileno)
    (hout : fd ≠ stdoutFileno) : Standard stdin stdout i (fds.close fd) where
  stdin := (Table.get_put_of_ne hin.symm).trans hstd.stdin
  stdout := (Table.get_put_of_ne hout.symm).trans hstd.stdout
  noWriter := hstd.noWriter.close

theorem put (hstd : Standard stdin stdout i fds) (hin : fd ≠ stdinFileno)
    (hout : fd ≠ stdoutFileno) (hobject : ∀ j, j + 1 = i → object ≠ .writeEnd j) :
    Standard stdin stdout i (fds.put fd (some object)) where
  stdin := (Table.get_put_of_ne hin.symm).trans hstd.stdin
  stdout := (Table.get_put_of_ne hout.symm).trans hstd.stdout
  noWriter := hstd.noWriter.put hobject

theorem putStdin (hstd : Standard stdin stdout i fds)
    (hobject : ∀ j, j + 1 = i → object ≠ .writeEnd j) :
    Standard object stdout i (fds.put stdinFileno (some object)) where
  stdin := Table.get_put_self le_rfl
  stdout := (Table.get_put_of_ne (by decide)).trans hstd.stdout
  noWriter := hstd.noWriter.put hobject

theorem putStdout (hstd : Standard stdin stdout i fds)
    (hobject : ∀ j, j + 1 = i → object ≠ .writeEnd j) :
    Standard stdin object i (fds.put stdoutFileno (some object)) where
  stdin := (Table.get_put_of_ne (by decide)).trans hstd.stdin
  stdout := Table.get_put_self (by decide)
  noWriter := hstd.noWriter.put hobject

/-- A new descriptor is none of the standard ones. -/
theorem lowest_ne (hstd : Standard stdin stdout i fds) :
    fds.lowest ≠ stdinFileno ∧ fds.lowest ≠ stdoutFileno :=
  ⟨(Table.ne_lowest hstd.stdin).symm, (Table.ne_lowest hstd.stdout).symm⟩

end Standard

end Standard

/-! ### One call -/

section Calls

variable {infile outfile : Option Text} {blocks : Nat} {α : Type} {post : α → Ghost → Prop}
  {g : Ghost} {object : Object}

theorem ensures_close {fd : Int} {next : Unit → Prog Reply α} (hok : g.Ok)
    (hnext : (next ()).Ensures (wiring infile outfile blocks) post
      { g with fds := g.fds.close fd }) :
    (Prog.perform (.close fd) next).Ensures (wiring infile outfile blocks) post g :=
  ⟨hok, _, rfl, hnext⟩

theorem ensures_free {block : Block} {next : Unit → Prog Reply α} (hok : g.Ok)
    (hnext : (next ()).Ensures (wiring infile outfile blocks) post g) :
    (Prog.perform (.free block) next).Ensures (wiring infile outfile blocks) post g :=
  ⟨hok, _, rfl, hnext⟩

theorem ensures_malloc {block : Block} {size : Nat} {next : Bool → Prog Reply α} (hok : g.Ok)
    (hnext : (next true).Ensures (wiring infile outfile blocks) post g) :
    (Prog.perform (.malloc block size) next).Ensures (wiring infile outfile blocks) post g :=
  ⟨hok, _, rfl, hnext⟩

theorem ensures_dup2 {oldfd newfd : Int} {next : Bool → Prog Reply α} (hok : g.Ok)
    (hget : g.fds.get oldfd = some object)
    (hnext : (next true).Ensures (wiring infile outfile blocks) post
      { g with fds := g.fds.put newfd (some object) }) :
    (Prog.perform (.dup2 oldfd newfd) next).Ensures (wiring infile outfile blocks) post g := by
  refine ⟨hok, (true, g.fds.put newfd (some object)), ?_, hnext⟩
  simp only [effect, hget]

theorem ensures_dup {fd : Int} {next : Int → Prog Reply α} (hok : g.Ok)
    (hget : g.fds.get fd = some object)
    (hnext : (next g.fds.lowest).Ensures (wiring infile outfile blocks) post
      { g with fds := g.fds.put g.fds.lowest (some object) }) :
    (Prog.perform (.dup fd) next).Ensures (wiring infile outfile blocks) post g := by
  refine ⟨hok, (g.fds.lowest, g.fds.put g.fds.lowest (some object)), ?_, hnext⟩
  simp only [effect, hget]
  rfl

theorem ensures_pipe {next : Option (Int × Int) → Prog Reply α} (hrole : g.role = .shell)
    (hnext : (next (some (openPipe g.pipes g.fds).1)).Ensures (wiring infile outfile blocks) post
      { g with fds := (openPipe g.pipes g.fds).2, pipes := g.pipes + 1 }) :
    (Prog.perform .pipe next).Ensures (wiring infile outfile blocks) post g :=
  ⟨hrole, hnext⟩

/-- Memory management, in any state of a process. -/
theorem ensures_frees {p : Prog Reply α} (hok : g.Ok)
    (hp : p.Only fun c => ∃ block, c = .free block) (hpost : ∀ value, post value g) :
    p.Ensures (wiring infile outfile blocks) post g := by
  refine Prog.ensures_of_only hp ?_ hpost
  rintro c Q ⟨block, rfl⟩ hQ
  exact ⟨hok, _, rfl, hQ ()⟩

/-- A program that only manages memory returns what it returns where memory is not short. -/
theorem ensures_local {p : Prog Reply α} (hok : g.Ok) (hp : p.Only Call.Local)
    {past events : List (Event Reply)} {value : α}
    (hreturns : Returns obligingEnv past p events value) (hpost : post value g) :
    p.Ensures (wiring infile outfile blocks) post g := by
  refine Prog.ensures_of_returns hp ?_ hreturns hpost
  intro c past reply Q hlocal hreply hQ
  cases c with
  | malloc | free | print | perror =>
      cases hreply
      exact ⟨hok, _, rfl, hQ⟩
  | _ => exact hlocal.elim

end Calls

/-! ### The child of a stage -/

/-- The child of the stage `i` at its start, with the read end of the pipe before it and both ends
of its own pipe. -/
structure Forked (i : Nat) (prev readFd writeFd : Int) (fds : Fds) : Prop where
  standard : Standard (.inherited 0) (.inherited 1) i fds
  readFd : fds.get readFd = some (.readEnd i)
  writeFd : fds.get writeFd = some (.writeEnd i)
  prev : ∀ j, j + 1 = i → fds.get prev = some (.readEnd j)

section Child

variable {infile outfile : Option Text} {blocks : Nat} {scan : Scan} {dupOut : Int}
  {argv : List Text} {prev : Int} {i : Nat} {g : Ghost}

theorem Ghost.ok_of_stage (hrole : g.role = .stage i) (hno : NoWriter i g.fds) : g.Ok := by
  unfold Ghost.Ok
  rw [hrole]
  exact hno

theorem Standard.ne {fds : Fds} {fd : Int} (hstd : Standard (.inherited 0) (.inherited 1) i fds)
    {object : Object} (hget : fds.get fd = some object) (hin : object ≠ .inherited 0)
    (hout : object ≠ .inherited 1) : fd ≠ stdinFileno ∧ fd ≠ stdoutFileno := by
  constructor
  · rintro rfl
    exact hin (Option.some.inj (hget.symm.trans hstd.stdin))
  · rintro rfl
    exact hout (Option.some.inj (hget.symm.trans hstd.stdout))

theorem ne_of_get {fds : Fds} {fd fd' : Int} {object object' : Object}
    (hget : fds.get fd = some object) (hget' : fds.get fd' = some object')
    (hne : object ≠ object') : fd ≠ fd' := by
  rintro rfl
  exact hne (Option.some.inj (hget.symm.trans hget'))

/-- The pipe before the stage becomes its input. -/
theorem stageStdin_ensures {readFd writeFd : Int} {α : Type} {post : α → Ghost → Prop}
    {next : Unit → Prog Reply α} (hrole : g.role = .stage i)
    (hforked : Forked i prev readFd writeFd g.fds)
    (hnext : ∀ fds, Standard (source none i) (.inherited 1) i fds →
      fds.get readFd = some (.readEnd i) → fds.get writeFd = some (.writeEnd i) →
      (next ()).Ensures (wiring infile outfile blocks) post { g with fds := fds }) :
    (stageStdin i prev >>= next).Ensures (wiring infile outfile blocks) post g := by
  have hstd := hforked.standard
  cases i with
  | zero => exact hnext g.fds hstd hforked.readFd hforked.writeFd
  | succ j =>
      have hprev := hforked.prev j rfl
      have hobject : ∀ k, k + 1 = j + 1 → Object.readEnd j ≠ .writeEnd k := fun _ _ => nofun
      have hin := hstd.putStdin hobject
      obtain ⟨hprevIn, hprevOut⟩ := hstd.ne hprev nofun nofun
      refine ensures_dup2 (Ghost.ok_of_stage hrole hstd.noWriter) hprev ?_
      refine ensures_close (Ghost.ok_of_stage hrole hin.noWriter) ?_
      apply hnext _ (hin.close hprevIn hprevOut)
      · have hne := ne_of_get hforked.readFd hprev (by simp)
        rw [Table.close, Table.get_put_of_ne hne,
          Table.get_put_of_ne (hstd.ne hforked.readFd nofun nofun).1]
        exact hforked.readFd
      · have hne := ne_of_get hforked.writeFd hprev nofun
        rw [Table.close, Table.get_put_of_ne hne,
          Table.get_put_of_ne (hstd.ne hforked.writeFd nofun nofun).1]
        exact hforked.writeFd

theorem source_ne_end (infile : Option Text) (i : Nat) :
    source infile i ≠ .readEnd i ∧ source infile i ≠ .writeEnd i := by
  cases i with
  | zero => cases infile <;> exact ⟨nofun, nofun⟩
  | succ i => simp [source]

/-- The pipe behind the stage becomes its output, unless it is the last one. -/
theorem stageStdout_ensures {readFd writeFd : Int} {α : Type} {post : α → Ghost → Prop}
    {next : Unit → Prog Reply α} (hblocks : scan.blockCount = blocks) (hrole : g.role = .stage i)
    (hstd : Standard (source none i) (.inherited 1) i g.fds)
    (hread : g.fds.get readFd = some (.readEnd i)) (hwrite : g.fds.get writeFd = some (.writeEnd i))
    (hnext : ∀ fds, Standard (source none i) (target none blocks i) i fds →
      (next ()).Ensures (wiring infile outfile blocks) post { g with fds := fds }) :
    (stageStdout scan i (readFd, writeFd) >>= next).Ensures (wiring infile outfile blocks) post
      g := by
  unfold stageStdout
  rw [hblocks]
  by_cases hlast : i < blocks
  · have hsource := source_ne_end none i
    have hobject : ∀ j, j + 1 = i → Object.writeEnd i ≠ .writeEnd j := by
      rintro j rfl heq
      exact absurd (Object.writeEnd.inj heq) (by omega)
    have hreadIn := ne_of_get hread hstd.stdin hsource.1.symm
    have hreadOut := ne_of_get hread hstd.stdout nofun
    have hwriteIn := ne_of_get hwrite hstd.stdin hsource.2.symm
    have hwriteOut := ne_of_get hwrite hstd.stdout nofun
    have hclosed := hstd.close hreadIn hreadOut
    have hput := hclosed.putStdout hobject
    have hwrite' : (g.fds.close readFd).get writeFd = some (.writeEnd i) :=
      (Table.get_put_of_ne (ne_of_get hwrite hread nofun)).trans hwrite
    rw [if_pos hlast]
    refine ensures_close (Ghost.ok_of_stage hrole hstd.noWriter) ?_
    refine ensures_dup2 (Ghost.ok_of_stage hrole hclosed.noWriter) hwrite' ?_
    refine ensures_close (Ghost.ok_of_stage hrole hput.noWriter) ?_
    apply hnext
    rw [target_of_lt hlast]
    exact hput.close hwriteIn hwriteOut
  · rw [if_neg hlast]
    apply hnext
    rw [target_of_not_lt hlast]
    exact hstd

/-- The table when a file has been opened and has become the descriptor `newfd`. -/
def moved (fds : Fds) (newfd : Int) (object : Object) : Fds :=
  ((fds.put fds.lowest (some object)).put newfd (some object)).close fds.lowest

theorem moved_ensures {newfd : Int} {object : Object} {block : Block} {α : Type}
    {post : α → Ghost → Prop} {next : Bool → Prog Reply α} {failed : Prog Reply Bool}
    (hrole : g.role = .stage i) (hno : NoWriter i g.fds)
    (hobject : ∀ j, j + 1 = i → object ≠ .writeEnd j)
    (hnext : (next true).Ensures (wiring infile outfile blocks) post
      { g with fds := moved g.fds newfd object }) :
    ((do
      if ← sys (.dup2 g.fds.lowest newfd) then
        sys (.close g.fds.lowest)
        sys (.free block)
        return true
      failed : Prog Reply Bool) >>= next).Ensures (wiring infile outfile blocks) post
      { g with fds := g.fds.put g.fds.lowest (some object) } := by
  have hopened : NoWriter i (g.fds.put g.fds.lowest (some object)) := hno.put hobject
  have hmoved : NoWriter i ((g.fds.put g.fds.lowest (some object)).put newfd (some object)) :=
    hopened.put hobject
  refine ensures_dup2 (Ghost.ok_of_stage hrole hopened)
    (Table.get_put_self g.fds.lowest_nonneg) ?_
  refine ensures_close (Ghost.ok_of_stage hrole hmoved) ?_
  exact ensures_free (Ghost.ok_of_stage hrole hmoved.close) hnext

theorem stageInput_ensures {name : Text} {stdin stdout : Object} {α : Type}
    {post : α → Ghost → Prop} {next : Bool → Prog Reply α} (hrole : g.role = .stage i)
    (hstd : Standard stdin stdout i g.fds)
    (hnext : ∀ fds, Standard (.infile name) stdout i fds →
      (next true).Ensures (wiring infile outfile blocks) post { g with fds := fds }) :
    (stageInput scan argv dupOut prev name >>= next).Ensures (wiring infile outfile blocks) post
      g := by
  have hobject : ∀ j, j + 1 = i → Object.infile name ≠ .writeEnd j := fun _ _ => nofun
  refine ⟨Ghost.ok_of_stage hrole hstd.noWriter, _, rfl, ?_⟩
  simp only [if_true, Table.alloc]
  refine moved_ensures hrole hstd.noWriter hobject (hnext _ ?_)
  obtain ⟨hin, hout⟩ := hstd.lowest_ne
  exact ((hstd.put hin hout hobject).putStdin hobject).close hin hout

theorem stageOutput_ensures {name : Text} {stdin stdout : Object} {α : Type}
    {post : α → Ghost → Prop} {next : Bool → Prog Reply α} (hrole : g.role = .stage i)
    (hstd : Standard stdin stdout i g.fds)
    (hnext : ∀ fds, Standard stdin (.outfile name) i fds →
      (next true).Ensures (wiring infile outfile blocks) post { g with fds := fds }) :
    (stageOutput scan argv prev name >>= next).Ensures (wiring infile outfile blocks) post
      g := by
  have hobject : ∀ j, j + 1 = i → Object.outfile name ≠ .writeEnd j := fun _ _ => nofun
  refine ⟨Ghost.ok_of_stage hrole hstd.noWriter, _, rfl, ?_⟩
  simp only [if_true, Table.alloc]
  refine moved_ensures hrole hstd.noWriter hobject (hnext _ ?_)
  obtain ⟨hin, hout⟩ := hstd.lowest_ne
  exact ((hstd.put hin hout hobject).putStdout hobject).close hin hout

/-- The first stage reads from the file behind `<`, if there is one. -/
theorem redirectInput_ensures {stdout : Object} {α : Type} {post : α → Ghost → Prop}
    {next : Bool → Prog Reply α} (hrole : g.role = .stage i)
    (hstd : Standard (source none i) stdout i g.fds)
    (hnext : ∀ fds, Standard (source infile i) stdout i fds →
      (next true).Ensures (wiring infile outfile blocks) post { g with fds := fds }) :
    (redirect (if i = 0 then infile else none) (stageInput scan argv dupOut prev) >>=
      next).Ensures (wiring infile outfile blocks) post g := by
  cases i with
  | succ i => exact hnext g.fds hstd
  | zero =>
      cases infile with
      | none => exact hnext g.fds hstd
      | some name => exact stageInput_ensures hrole hstd hnext

/-- The last stage writes to the file behind `>`, if there is one. -/
theorem redirectOutput_ensures {stdin : Object} {α : Type} {post : α → Ghost → Prop}
    {next : Bool → Prog Reply α} (hblocks : i ≤ blocks) (hrole : g.role = .stage i)
    (hstd : Standard stdin (target none blocks i) i g.fds)
    (hnext : ∀ fds, Standard stdin (target outfile blocks i) i fds →
      (next true).Ensures (wiring infile outfile blocks) post { g with fds := fds }) :
    (redirect (if i = blocks then outfile else none) (stageOutput scan argv prev) >>=
      next).Ensures (wiring infile outfile blocks) post g := by
  by_cases hlast : i = blocks
  · rw [if_pos hlast]
    cases outfile with
    | none => exact hnext g.fds hstd
    | some name =>
        refine stageOutput_ensures hrole hstd fun fds hfds => hnext fds ?_
        rw [target_of_not_lt (by omega)]
        exact hfds
  · have hlt : i < blocks := by omega
    rw [if_neg hlast]
    apply hnext
    rw [target_of_lt hlt, ← target_of_lt hlt none]
    exact hstd

/-- The child gets to its command with its own input and output. -/
theorem stageChild_ensures {readFd writeFd : Int} {post : Unit → Ghost → Prop}
    (hrole : g.role = .stage i) (hblocks : i ≤ scan.blockCount)
    (hforked : Forked i prev readFd writeFd g.fds) :
    (stageChild scan dupOut i argv prev (readFd, writeFd)).Ensures
      (wiring scan.infileName scan.outfileName scan.blockCount) post g := by
  refine stageStdin_ensures hrole hforked fun fds₁ hstd₁ hread hwrite => ?_
  refine stageStdout_ensures rfl hrole hstd₁ hread hwrite fun fds₂ hstd₂ => ?_
  refine redirectInput_ensures hrole hstd₂ fun fds₃ hstd₃ => ?_
  refine redirectOutput_ensures hblocks hrole hstd₃ fun fds₄ hstd₄ => ?_
  exact ⟨i, hrole, hstd₄⟩

end Child

/-! ### The loop of the shell -/

/-- The descriptors of the shell at the start of a turn: of all pipes, it has the read end of the
last one. -/
structure LoopHead (i : Nat) (prev : Int) (fds : Fds) : Prop where
  stdin : fds.get stdinFileno = some (.inherited 0)
  stdout : fds.get stdoutFileno = some (.inherited 1)
  noWriteEnd : ∀ fd j, fds.get fd ≠ some (.writeEnd j)
  readEnd : ∀ fd j, fds.get fd = some (.readEnd j) → fd = prev ∧ j + 1 = i
  prev : ∀ j, j + 1 = i → fds.get prev = some (.readEnd j)

section Turn

variable {i pipe : Nat} {prev fd : Int} {fds : Fds} {object : Object}

theorem get_openPipe_eq_some (hget : (openPipe pipe fds).2.get fd = some object) :
    fd = (openPipe pipe fds).1.2 ∧ object = .writeEnd pipe ∨
      fd = (openPipe pipe fds).1.1 ∧ object = .readEnd pipe ∨ fds.get fd = some object := by
  rcases Table.get_put_eq_some hget with ⟨hfd, heq⟩ | ⟨-, hget⟩
  · exact .inl ⟨hfd, (Option.some.inj heq).symm⟩
  · rcases Table.get_put_eq_some hget with ⟨hfd, heq⟩ | ⟨-, hget⟩
    · exact .inr (.inl ⟨hfd, (Option.some.inj heq).symm⟩)
    · exact .inr (.inr hget)

theorem get_openPipe_readFd (pipe : Nat) (fds : Fds) :
    (openPipe pipe fds).2.get (openPipe pipe fds).1.1 = some (.readEnd pipe) := by
  have hget : (fds.put fds.lowest (some (.readEnd pipe))).get fds.lowest = some (.readEnd pipe) :=
    Table.get_put_self fds.lowest_nonneg
  exact (Table.get_put_of_ne (Table.ne_lowest hget)).trans hget

theorem get_openPipe_writeFd (pipe : Nat) (fds : Fds) :
    (openPipe pipe fds).2.get (openPipe pipe fds).1.2 = some (.writeEnd pipe) :=
  Table.get_put_self (Table.lowest_nonneg _)

theorem get_openPipe_of_some (hget : fds.get fd = some object) :
    (openPipe pipe fds).2.get fd = some object := by
  have hread : (fds.put fds.lowest (some (.readEnd pipe))).get fd = some object :=
    (Table.get_put_of_ne (Table.ne_lowest hget)).trans hget
  exact (Table.get_put_of_ne (Table.ne_lowest hread)).trans hread

theorem LoopHead.forked (hhead : LoopHead i prev fds) :
    Forked i prev (openPipe i fds).1.1 (openPipe i fds).1.2 (openPipe i fds).2 where
  standard := by
    refine ⟨get_openPipe_of_some hhead.stdin, get_openPipe_of_some hhead.stdout, ?_⟩
    rintro j fd rfl hget
    rcases get_openPipe_eq_some hget with ⟨-, heq⟩ | ⟨-, heq⟩ | hget
    · exact absurd (Object.writeEnd.inj heq) (by omega)
    · exact nomatch heq
    · exact hhead.noWriteEnd fd j hget
  readFd := get_openPipe_readFd i fds
  writeFd := get_openPipe_writeFd i fds
  prev j hj := get_openPipe_of_some (hhead.prev j hj)

/-- The shell keeps only the read end of the new pipe. -/
theorem LoopHead.next (hhead : LoopHead i prev fds) {closed : Fds}
    (hclosed : ∀ fd object, closed.get fd = some object ↔
      (openPipe i fds).2.get fd = some object ∧ (0 < i → fd ≠ prev)) :
    LoopHead (i + 1) (openPipe i fds).1.1 (closed.close (openPipe i fds).1.2) := by
  have hforked := hhead.forked
  have hkeep {fd : Int} {object : Object} (hget : (openPipe i fds).2.get fd = some object)
      (hprev : ∀ j, j + 1 = i → object ≠ .readEnd j) (hwrite : object ≠ .writeEnd i) :
      (closed.close (openPipe i fds).1.2).get fd = some object := by
    refine (Table.get_put_of_ne (ne_of_get hget hforked.writeFd hwrite)).trans ?_
    refine (hclosed fd object).mpr ⟨hget, fun hi => ?_⟩
    obtain ⟨j, rfl⟩ : ∃ j, i = j + 1 := ⟨i - 1, by omega⟩
    exact ne_of_get hget (hforked.prev j rfl) (hprev j rfl)
  have hback {fd : Int} {object : Object}
      (hget : (closed.close (openPipe i fds).1.2).get fd = some object) :
      fd ≠ (openPipe i fds).1.2 ∧ (openPipe i fds).2.get fd = some object ∧
        (0 < i → fd ≠ prev) := by
    rcases Table.get_put_eq_some hget with ⟨-, heq⟩ | ⟨hne, hget⟩
    · exact nomatch heq
    · exact ⟨hne, (hclosed fd object).mp hget⟩
  refine ⟨hkeep hforked.standard.stdin nofun nofun, hkeep hforked.standard.stdout nofun nofun,
    fun fd j hget => ?_, fun fd j hget => ?_, ?_⟩
  · obtain ⟨hne, hget, -⟩ := hback hget
    rcases get_openPipe_eq_some hget with ⟨hfd, -⟩ | ⟨-, heq⟩ | hget
    · exact hne hfd
    · exact nomatch heq
    · exact hhead.noWriteEnd fd j hget
  · obtain ⟨-, hget, hprev⟩ := hback hget
    rcases get_openPipe_eq_some hget with ⟨-, heq⟩ | ⟨hfd, heq⟩ | hget
    · exact nomatch heq
    · exact ⟨hfd, congrArg (· + 1) (Object.readEnd.inj heq)⟩
    · obtain ⟨hfd, hj⟩ := hhead.readEnd fd j hget
      exact absurd hfd (hprev (by omega))
  · rintro j hj
    obtain rfl : j = i := by omega
    exact hkeep hforked.readFd (fun k hk heq => absurd (Object.readEnd.inj heq) (by omega)) nofun

/-- The shell closes its ends of the pipes and waits for the stage it has forked. -/
theorem waits_ensures {infile outfile : Option Text} {blocks pipes forks : Nat} {α : Type}
    {post : α → Ghost → Prop} {next : Prog Reply α} (hhead : LoopHead i prev fds)
    (hnext : ∀ fds', LoopHead (i + 1) (openPipe i fds).1.1 fds' →
      next.Ensures (wiring infile outfile blocks) post ⟨fds', pipes, forks, .shell⟩) :
    (do
      closeIf (i > 0) prev
      sys (.close (openPipe i fds).1.2)
      sys .wait
      next).Ensures (wiring infile outfile blocks) post
        ⟨(openPipe i fds).2, pipes, forks, .parent i⟩ := by
  have hforked := hhead.forked
  have hread := hforked.readFd
  have hno := hforked.standard.noWriter
  have hwrite {closed : Fds} (hget : closed.get (openPipe i fds).1.1 = some (.readEnd i)) :
      (closed.close (openPipe i fds).1.2).get (openPipe i fds).1.1 = some (.readEnd i) :=
    (Table.get_put_of_ne (ne_of_get hread hforked.writeFd nofun)).trans hget
  cases i with
  | zero =>
      refine ensures_close ⟨hno, _, hread⟩ ⟨⟨hno.close, _, hwrite hread⟩, ⟨0, rfl⟩, hnext _ ?_⟩
      exact hhead.next fun fd object => ⟨fun hget => ⟨hget, nofun⟩, And.left⟩
  | succ j =>
      have hprev := hforked.prev j rfl
      have hclosed : ((openPipe (j + 1) fds).2.close prev).get (openPipe (j + 1) fds).1.1 =
          some (.readEnd (j + 1)) :=
        (Table.get_put_of_ne (ne_of_get hread hprev (by simp))).trans hread
      refine ensures_close ⟨hno, _, hread⟩ (ensures_close ⟨hno.close, _, hclosed⟩
        ⟨⟨hno.close.close, _, hwrite hclosed⟩, ⟨j + 1, rfl⟩, hnext _ (hhead.next ?_)⟩)
      intro fd object
      constructor
      · intro hget
        rcases Table.get_put_eq_some hget with ⟨-, heq⟩ | ⟨hne, hget⟩
        · exact nomatch heq
        · exact ⟨hget, fun _ => hne⟩
      · rintro ⟨hget, hne⟩
        exact (Table.get_put_of_ne (hne (Nat.succ_pos j))).trans hget

end Turn

section Stages

variable {scan : Scan} {wordsCount : Nat} {dupOut : Int} {i : Nat} {loop : Loop} {fds : Fds}

/-- One turn of the loop. -/
theorem stages_turn {left : Nat} {post : Unit → Ghost → Prop} {c rest : List Token}
    (hwaits : loop.waits = false) (hcursor : skipPipe loop.cursor = pure (c ++ rest))
    (hfree : ∀ t ∈ c, t.type ≠ .pipe) (hnamed : RedirectionsNamed c)
    (hrest : ∀ p ∈ rest.head?, p.type = .pipe) (hblocks : i ≤ scan.blockCount)
    (hhead : LoopHead i loop.prevPipeReadEnd fds)
    (hnext : ∀ readFd fds', LoopHead (i + 1) readFd fds' →
      (stages scan wordsCount dupOut left (i + 1)
        { loop.collected (plainWords c) rest with prevPipeReadEnd := readFd }).Ensures
          (wiring scan.infileName scan.outfileName scan.blockCount) post
          ⟨fds', i + 1, i + 1, .shell⟩) :
    (stages scan wordsCount dupOut (left + 1) i loop).Ensures
      (wiring scan.infileName scan.outfileName scan.blockCount) post ⟨fds, i, i, .shell⟩ := by
  rw [stages, Program.call_bind]
  refine ensures_pipe rfl ?_
  dsimp only
  rw [Prog.ensures_bind]
  refine ensures_frees trivial (doFree_only (fun block => ⟨block, rfl⟩) _) fun _ => ?_
  rw [Program.call_bind]
  refine ensures_malloc trivial ?_
  rw [if_pos rfl, hcursor, Program.pure_bind, Prog.ensures_bind]
  obtain ⟨events, hcollect⟩ := collect_command obligingEnv_hosts.toAllocates scan hfree hnamed
    hrest [] loop hwaits
  refine ensures_local trivial ((collect_only scan _ _).mono fun _ h => h.1) hcollect ?_
  refine ⟨rfl, rfl, waits_ensures hhead (hnext _), ?_⟩
  exact stageChild_ensures rfl hblocks hhead.forked

/-- The loop forks a child for every command that is left, one after the other. -/
theorem stages_ensures {tokens : List Token} (hwaits : loop.waits = false)
    (hcursor : skipPipe loop.cursor = pure tokens)
    (hnamed : ∀ c ∈ commands tokens, RedirectionsNamed c)
    (hblocks : i + (commands tokens).length = scan.blockCount + 1)
    (hhead : LoopHead i loop.prevPipeReadEnd fds) :
    (stages scan wordsCount dupOut (commands tokens).length i loop).Ensures
      (wiring scan.infileName scan.outfileName scan.blockCount)
      (fun _ g => g.role = .shell ∧ g.forks = scan.blockCount + 1) ⟨fds, i, i, .shell⟩ := by
  obtain ⟨c, cs, heq⟩ := List.exists_cons_of_ne_nil (commands_ne_nil tokens)
  have hmem : c ∈ commands tokens := heq ▸ List.mem_cons_self
  have hfree : ∀ t ∈ c, t.type ≠ .pipe := fun t ht => type_ne_pipe_of_mem_commands hmem ht
  have hle : i ≤ scan.blockCount := by
    rw [heq, List.length_cons] at hblocks
    omega
  induction cs generalizing tokens i loop fds c with
  | nil =>
      obtain ⟨rfl, _⟩ | ⟨_, ts, _, _, hnil⟩ := commands_eq_cons heq
      · rw [← List.append_nil tokens] at hcursor
        rw [heq, List.length_singleton] at hblocks ⊢
        refine stages_turn hwaits hcursor hfree (hnamed tokens hmem) nofun hle hhead ?_
        intro readFd fds' _
        rw [stages]
        exact ensures_frees trivial (doFreeExit_none_only (fun block => ⟨block, rfl⟩) _ _ _)
          fun _ => ⟨rfl, hblocks⟩
      · exact absurd hnil (commands_ne_nil ts)
  | cons c' cs ih =>
      obtain ⟨_, hnil⟩ | ⟨p, ts, rfl, hp, hrest⟩ := commands_eq_cons heq
      · exact absurd hnil (List.cons_ne_nil _ _)
      · have hmem' : c' ∈ commands ts := hrest ▸ List.mem_cons_self
        have hskip : skipPipe (p :: ts) = pure ts := by
          simp only [skipPipe, hp, if_true]
        rw [heq, List.length_cons, ← hrest] at hblocks ⊢
        refine stages_turn hwaits hcursor hfree (hnamed c hmem)
          (fun q hq => Option.mem_some_iff.mp hq ▸ hp) hle hhead ?_
        intro readFd fds' hhead'
        refine ih rfl hskip (fun d hd => hnamed d ?_) (by omega) hhead' c' hrest hmem'
          (fun t ht => type_ne_pipe_of_mem_commands hmem' ht) ?_
        · exact heq ▸ List.mem_cons_of_mem c (hrest ▸ hd)
        · have hpos := List.length_pos_of_mem hmem'
          omega

end Stages

/-! ### `Exec` -/

/-- The first shell has a standard input and a standard output, and no pipes yet. -/
structure Inherits (fds : Fds) : Prop where
  stdin : fds.get stdinFileno = some (.inherited 0)
  stdout : fds.get stdoutFileno = some (.inherited 1)
  inherited : ∀ fd object, fds.get fd = some object → ∃ n, object = .inherited n

/-- The descriptors of a shell with its three standard streams. -/
def standardFds : Fds := ⟨[some (.inherited 0), some (.inherited 1), some (.inherited 2)]⟩

theorem standardFds_inherits : Inherits standardFds := by
  refine ⟨rfl, rfl, fun fd object hget => ?_⟩
  rcases fd with n | n
  · rcases n with _ | _ | _ | n
    · exact ⟨0, (Option.some.inj hget).symm⟩
    · exact ⟨1, (Option.some.inj hget).symm⟩
    · exact ⟨2, (Option.some.inj hget).symm⟩
    · exact nomatch hget
  · exact nomatch hget

theorem Inherits.loopHead {fds : Fds} (hfds : Inherits fds) :
    LoopHead 0 (-1) (fds.put fds.lowest (some (.inherited 1))) := by
  have hinherited : ∀ fd object,
      (fds.put fds.lowest (some (.inherited 1))).get fd = some object →
      ∃ n, object = .inherited n := by
    intro fd object hget
    rcases Table.get_put_eq_some hget with ⟨-, heq⟩ | ⟨-, hget⟩
    · exact ⟨1, (Option.some.inj heq).symm⟩
    · exact hfds.inherited fd object hget
  refine ⟨(Table.get_put_of_ne (Table.ne_lowest hfds.stdin)).trans hfds.stdin,
    (Table.get_put_of_ne (Table.ne_lowest hfds.stdout)).trans hfds.stdout,
    fun fd j hget => ?_, fun fd j hget => ?_, nofun⟩
  · obtain ⟨n, hn⟩ := hinherited fd _ hget
    exact nomatch hn
  · obtain ⟨n, hn⟩ := hinherited fd _ hget
    exact nomatch hn

/-- The pipelines that the first pass takes for malformed, for the number of their pipes. -/
def Refused (tokens : List Token) : Prop :=
  ¬(count .outfile tokens = 0 ∨ count .pipe tokens < 2 ^ 31 ∨
    count .pipe tokens % 2 ^ 32 = 2 ^ 32 - 1)

instance (tokens : List Token) : Decidable (Refused tokens) :=
  inferInstanceAs (Decidable (¬(_ ∨ _ ∨ _)))

/-- The number of stages the shell starts for a pipeline. -/
def stageCount (tokens : List Token) : Nat :=
  if Refused tokens then 0 else count .pipe tokens + 1

/-- `Exec` behind the first pass over a pipeline. The number of the pipes is not looked at if the
line is refused. -/
theorem launch_ensures {tokens : List Token} {dupOut : Int} {fds : Fds} {scan : Scan}
    (hwell : WellFormed tokens) (hlength : tokens.length < 2 ^ 59)
    (hpipes : 0 < count .pipe tokens) (hsteps : Scan.steps tokens {} = some scan)
    (hwaits : scan.waits = false) (hhead : LoopHead 0 (-1) fds) {blocks : Nat}
    (hblocks : ¬Refused tokens → blocks = count .pipe tokens) :
    (launch tokens dupOut scan).Ensures
      (wiring (fileName .infile tokens) (fileName .outfile tokens) blocks)
      (fun _ g => g.role = .shell ∧ g.forks = stageCount tokens) ⟨fds, 0, 0, .shell⟩ := by
  have hblock : scan.blockCount = count .pipe tokens := (reads_nil.steps hsteps).blockCount
  have hrejects : scan.Rejects ↔ Refused tokens := by
    rw [Refused, ← Scan.not_rejects_iff hwell hlength hsteps hwaits, not_not]
  unfold launch
  by_cases hreject : scan.Rejects
  · have hcount : stageCount tokens = 0 := if_pos (hrejects.mp hreject)
    have hlocal := doFreeExit_only (P := Call.Local) (fun _ => trivial) (entries scan.argv)
      (some "Syntax error") scan.infileName scan.outfileName fun _ _ => trivial
    obtain ⟨events, value, hreturns⟩ := obligingEnv_hosts.toAllocates.returns hlocal []
    rw [if_pos hreject]
    exact ensures_local trivial hlocal hreturns ⟨rfl, hcount.symm⟩
  · have hcount : stageCount tokens = scan.blockCount + 1 := by
      rw [stageCount, if_neg (mt hrejects.mpr hreject), hblock]
    have hinfile : scan.infileName = fileName .infile tokens :=
      Scan.name_eq hwell hsteps (.inl rfl) hwell.infile_le
    have houtfile : scan.outfileName = fileName .outfile tokens :=
      Scan.name_eq hwell hsteps (.inr rfl) hwell.outfile_le
    have hlength : (commands tokens).length = scan.blockCount + 1 := by
      rw [length_commands, hblock]
    have hskip : skipPipe tokens = pure tokens := by
      cases tokens with
      | nil => exact absurd hpipes (lt_irrefl 0)
      | cons t ts =>
          have ht : t.type ≠ .pipe := fun ht => hwell.not_overlooked (.leading t ts rfl ht)
          simp only [skipPipe, ht, if_false]
    let loop : Loop :=
      { argv := scan.argv, cursor := tokens, infileBefore := scan.infileBefore,
        outfileBefore := scan.outfileBefore, prevPipeReadEnd := -1 }
    have hloop : loop.waits = false := hwaits
    have hturns : 0 + (commands tokens).length = scan.blockCount + 1 := by
      rw [hlength, Nat.zero_add]
    rw [if_neg hreject, if_neg (by omega), hcount, hblocks (mt hrejects.mpr hreject), ← hblock,
      ← hinfile, ← houtfile]
    exact (congrArg (fun left => (stages scan _ dupOut left 0 loop).Ensures _ _ _) hlength).mp
      (stages_ensures hloop hskip hwell.named hturns hhead)

theorem exec_ensures (tokenizer : Tokenizer) (hwell : WellFormed tokenizer.tokens)
    (hpipes : 0 < count .pipe tokenizer.tokens) {fds : Fds} (hfds : Inherits fds) {blocks : Nat}
    (hblocks : ¬Refused tokenizer.tokens → blocks = count .pipe tokenizer.tokens) :
    (exec tokenizer).Ensures
      (wiring (fileName .infile tokenizer.tokens) (fileName .outfile tokenizer.tokens) blocks)
      (fun _ g => g.role = .shell ∧ g.forks = stageCount tokenizer.tokens)
      ⟨fds, 0, 0, .shell⟩ := by
  obtain ⟨scan, hsteps, hwaits⟩ := Scan.steps_wellFormed hwell
  obtain ⟨events, hfirst, -⟩ := firstPass_reports obligingEnv_hosts.toAllocates tokenizer.tokens []
    {}
  rw [hsteps] at hfirst
  unfold exec
  rw [if_neg (by simpa using hwell.ne_nil), Program.call_bind]
  refine ensures_dup trivial hfds.stdout ?_
  rw [Program.call_bind]
  refine ensures_malloc trivial ?_
  rw [if_pos rfl, Prog.ensures_bind]
  refine ensures_local trivial (firstPass_only _ _) hfirst ?_
  exact launch_ensures hwell tokenizer.length_lt hpipes hsteps hwaits hfds.loopHead hblocks

/-- The line `a | b`. -/
def wordPipeline : Tokenizer where
  tokens := [⟨[97], .word⟩, ⟨[124], .pipe⟩, ⟨[98], .word⟩]
  length_lt := by norm_num

theorem wordPipeline_wellFormed : WellFormed wordPipeline.tokens := by
  have hcommands : commands wordPipeline.tokens = [[⟨[97], .word⟩], [⟨[98], .word⟩]] := by decide
  refine ⟨?_, ?_, by decide, ?_, by decide, ?_⟩
  all_goals rw [hcommands]
  · decide
  · simp [RedirectionsNamed, Token.isRedirection]
  · decide
  · decide

end Acos.Shell.Pipe
