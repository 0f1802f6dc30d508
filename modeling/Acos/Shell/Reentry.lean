import Acos.Shell.Session
import Acos.Shell.Wiring

/-!
# Processes that go back to `main`

`Exec` returns in the shell, and in those of its children that do not become a command. Such a child
of a single command goes on with the next line. It has the standard input and output of the shell
then, if a file could not be opened, or if the command was not found and had no redirections. From a
pipeline no child is to return, as the shell has not started all stages by then.
-/

namespace Acos.Shell.Pipe.Session

open Program Descriptors

/-- The process may start a child, waits for one, which may be the last one for the line, is behind
the wait for the last one, or is a child, which may go back to `main` if it is the last one. -/
inductive Role where
  | shell
  | waits (last : Bool)
  | done
  | child (last : Bool)

structure Ghost where
  fds : Fds
  role : Role

/-- The process goes on with the next line. -/
structure Ghost.Reads (g : Ghost) : Prop where
  base : Base g.fds
  role : g.role = .shell ∨ g.role = .done ∨ g.role = .child true

/-- Only a file of a single command may not be opened. -/
def Allowed (tokens : List Token) (ok : Bool) (c : Call) : Prop :=
  ok = false → ((∃ name, c = .openRead name) ∨ ∃ name, c = .openWrite name) →
    count .pipe tokens = 0

/-- A process forks a child only when it has none, and does so again only if the last one does not
go back to `main`. It never follows a null pointer. -/
def reentry (tokens : List Token) : (c : Call) → Ghost → (Reply c → Ghost → Prop) → Prop
  | .fork, g, Q =>
      g.role = .shell ∧ ∃ last, Q .parent { g with role := .waits last } ∧
        Q .child { g with role := .child last }
  | .wait, g, Q =>
      ∃ last, g.role = .waits last ∧ Q () { g with role := if last then .done else .shell }
  | .execvp _, g, Q => (∃ last, g.role = .child last) ∧ (Plain tokens → Q () g)
  | .nullDereference, _, _ => False
  | .pipe, g, Q =>
      ∀ pipe, Q (some (openPipe pipe g.fds).1) { g with fds := (openPipe pipe g.fds).2 }
  | c, g, Q =>
      ∀ ok result, Allowed tokens ok c → effect ok c g.fds = some result →
        Q result.1 { g with fds := result.2 }

/-- The program is that of a process on its way through the line. -/
abbrev Right (tokens : List Token) (p : Prog Reply Unit) (g : Ghost) : Prop :=
  p.Ensures (reentry tokens) (fun _ g => g.Reads) g

/-! ### One call -/

section Calls

variable {tokens : List Token} {α : Type} {post : α → Ghost → Prop} {g : Ghost} {object : Object}

theorem ensures_close {fd : Int} {next : Unit → Prog Reply α}
    (hnext : (next ()).Ensures (reentry tokens) post { g with fds := g.fds.close fd }) :
    (Prog.perform (.close fd) next).Ensures (reentry tokens) post g := by
  rintro ok result - hresult
  cases hresult
  exact hnext

theorem ensures_free {block : Block} {next : Unit → Prog Reply α}
    (hnext : (next ()).Ensures (reentry tokens) post g) :
    (Prog.perform (.free block) next).Ensures (reentry tokens) post g := by
  rintro ok result - hresult
  cases hresult
  exact hnext

theorem ensures_malloc {block : Block} {size : Nat} {next : Bool → Prog Reply α}
    (hnext : ∀ ok, (next ok).Ensures (reentry tokens) post g) :
    (Prog.perform (.malloc block size) next).Ensures (reentry tokens) post g := by
  rintro ok result - hresult
  cases hresult
  exact hnext ok

theorem ensures_dup2 {oldfd newfd : Int} {next : Bool → Prog Reply α}
    (hget : g.fds.get oldfd = some object)
    (hnext : (next true).Ensures (reentry tokens) post
      { g with fds := g.fds.put newfd (some object) }) :
    (Prog.perform (.dup2 oldfd newfd) next).Ensures (reentry tokens) post g := by
  rintro ok result - hresult
  simp only [effect, hget] at hresult
  cases hresult
  exact hnext

/-- The result of the call is not looked at. -/
theorem ensures_dup2_ignored {oldfd newfd : Int} {next : Bool → Prog Reply α}
    (hnext : ∀ ok fds, (next ok).Ensures (reentry tokens) post { g with fds := fds }) :
    (Prog.perform (.dup2 oldfd newfd) next).Ensures (reentry tokens) post g :=
  fun _ result _ _ => hnext result.1 result.2

theorem ensures_dup {fd : Int} {next : Int → Prog Reply α} (hget : g.fds.get fd = some object)
    (hnext : (next g.fds.lowest).Ensures (reentry tokens) post
      { g with fds := g.fds.put g.fds.lowest (some object) }) :
    (Prog.perform (.dup fd) next).Ensures (reentry tokens) post g := by
  rintro ok result - hresult
  simp only [effect, hget] at hresult
  cases hresult
  exact hnext

theorem ensures_openRead {name : Text} {next : Int → Prog Reply α}
    (hopened : (next g.fds.lowest).Ensures (reentry tokens) post
      { g with fds := g.fds.put g.fds.lowest (some (.infile name)) })
    (hfailed : count .pipe tokens = 0 → (next (-1)).Ensures (reentry tokens) post g) :
    (Prog.perform (.openRead name) next).Ensures (reentry tokens) post g := by
  rintro ok result hallowed hresult
  cases hresult
  cases ok with
  | true => exact hopened
  | false => exact hfailed (hallowed rfl (.inl ⟨name, rfl⟩))

theorem ensures_openWrite {name : Text} {next : Int → Prog Reply α}
    (hopened : (next g.fds.lowest).Ensures (reentry tokens) post
      { g with fds := g.fds.put g.fds.lowest (some (.outfile name)) })
    (hfailed : count .pipe tokens = 0 → (next (-1)).Ensures (reentry tokens) post g) :
    (Prog.perform (.openWrite name) next).Ensures (reentry tokens) post g := by
  rintro ok result hallowed hresult
  cases hresult
  cases ok with
  | true => exact hopened
  | false => exact hfailed (hallowed rfl (.inr ⟨name, rfl⟩))

/-- Memory management and messages. -/
theorem ensures_local {p : Prog Reply α} (hp : p.Only Call.Local)
    (hpost : ∀ value, p.Yields value → post value g) : p.Ensures (reentry tokens) post g := by
  refine Prog.ensures_of_yields hp ?_ hpost
  intro c Q hlocal hQ
  cases c with
  | malloc | free | print | perror =>
      rintro ok result - hresult
      cases hresult
      exact hQ _
  | _ => exact hlocal.elim

/-- A file that has been opened becomes the descriptor `newfd`. -/
theorem moved_ensures {newfd : Int} {block : Block} {next : Bool → Prog Reply α}
    {failed : Prog Reply Bool}
    (hnext : (next true).Ensures (reentry tokens) post
      { g with fds := moved g.fds newfd object }) :
    ((do
      if ← sys (.dup2 g.fds.lowest newfd) then
        sys (.close g.fds.lowest)
        sys (.free block)
        return true
      failed : Prog Reply Bool) >>= next).Ensures (reentry tokens) post
      { g with fds := g.fds.put g.fds.lowest (some object) } := by
  refine ensures_dup2 (Table.get_put_self g.fds.lowest_nonneg) ?_
  exact ensures_close (ensures_free hnext)

end Calls

/-! ### The child of a single command -/

section Command

variable {tokens : List Token} {scan : Scan} {dupOut : Int} {g : Ghost}

/-- A new descriptor is none of the standard ones. -/
theorem Base.lowest_ne {fds : Fds} (hbase : Base fds) :
    fds.lowest ≠ stdinFileno ∧ fds.lowest ≠ stdoutFileno :=
  ⟨(Table.ne_lowest hbase.stdin).symm, (Table.ne_lowest hbase.stdout).symm⟩

theorem Base.put {fds : Fds} {fd : Int} {object : Option Object} (hbase : Base fds)
    (hin : fd ≠ stdinFileno) (hout : fd ≠ stdoutFileno) : Base (fds.put fd object) where
  stdin := (Table.get_put_of_ne hin.symm).trans hbase.stdin
  stdout := (Table.get_put_of_ne hout.symm).trans hbase.stdout

/-- The child still reads from the standard input of the shell, and has kept its output. -/
structure Kept (dupOut : Int) (fds : Fds) : Prop where
  stdin : fds.get stdinFileno = some (.inherited 0)
  saved : fds.get dupOut = some (.inherited 1)
  ne_stdout : dupOut ≠ stdoutFileno

theorem get_moved_of_ne {fds : Fds} {fd newfd : Int} {object object' : Object}
    (hget : fds.get fd = some object') (hne : fd ≠ newfd) :
    (moved fds newfd object).get fd = some object' := by
  have hlowest := Table.ne_lowest hget
  rw [moved, Table.close, Table.get_put_of_ne hlowest, Table.get_put_of_ne hne,
    Table.get_put_of_ne hlowest]
  exact hget

theorem Kept.moved {fds : Fds} {object : Object} (hkept : Kept dupOut fds) :
    Kept dupOut (moved fds stdoutFileno object) where
  stdin := get_moved_of_ne hkept.stdin (by decide)
  saved := get_moved_of_ne hkept.saved hkept.ne_stdout
  ne_stdout := hkept.ne_stdout

theorem Ghost.Reads.of_child (hbase : Base g.fds) (hrole : g.role = .child true) : g.Reads :=
  ⟨hbase, .inr (.inr hrole)⟩

/-- A file could not be opened. The names and the arguments are freed, and the child returns. -/
theorem failed_ensures {blocks : List Block} {message : String}
    {infileName outfileName : Option Text} {next : Bool → Prog Reply Unit}
    (hnext : Right tokens (next false) g) :
    Right tokens ((do
      doFreeExit blocks (some message) infileName outfileName
      return false) >>= next) g := by
  rw [Program.bind_assoc, Right, Prog.ensures_bind]
  exact ensures_local (doFreeExit_only (fun _ => trivial) _ _ _ _ fun _ _ => trivial)
    fun _ _ => hnext

theorem lowest_ne_neg_one (fds : Fds) : fds.lowest ≠ -1 := by
  have hnonneg := fds.lowest_nonneg
  omega

/-- The child goes back to `main`, or writes to the file from now on. -/
theorem commandOutput_ensures {name : Text} {next : Bool → Prog Reply Unit} (hbase : Base g.fds)
    (hfailed : Right tokens (next false) g)
    (hnext : Right tokens (next true) { g with fds := moved g.fds stdoutFileno (.outfile name) }) :
    Right tokens (commandOutput scan name >>= next) g := by
  unfold commandOutput
  rw [Program.bind_assoc, Program.call_bind]
  refine ensures_openWrite ?_ fun _ => failed_ensures hfailed
  rw [if_neg (lowest_ne_neg_one g.fds), if_pos hbase.lowest_ne.2]
  exact moved_ensures hnext

/-- The child has its output back when it goes back to `main`, or reads from the file. -/
theorem commandInput_ensures {name : Text} {next : Bool → Prog Reply Unit}
    (hkept : Kept dupOut g.fds)
    (hfailed : ∀ fds, Base fds → Right tokens (next false) { g with fds := fds })
    (hnext : ∀ fds, Right tokens (next true) { g with fds := fds }) :
    Right tokens (commandInput scan dupOut name >>= next) g := by
  unfold commandInput
  rw [Program.bind_assoc, Program.call_bind]
  refine ensures_openRead ?_ fun _ => ?_
  · rw [if_neg (lowest_ne_neg_one g.fds), if_pos (Table.ne_lowest hkept.stdin).symm]
    exact moved_ensures (hnext _)
  · rw [if_pos rfl, Program.bind_assoc, Program.call_bind]
    refine ensures_dup2 hkept.saved (failed_ensures (hfailed _ ?_))
    exact ⟨(Table.get_put_of_ne (by decide)).trans hkept.stdin, Table.get_put_self (by decide)⟩

/-- The child becomes the command, or goes back to `main` as the shell has forked it. -/
theorem commandChild_ensures (hbase : Base g.fds) (hrole : g.role = .child true)
    (hsaved : g.fds.get dupOut = some (.inherited 1)) (hne : dupOut ≠ stdoutFileno)
    (hplain : Plain tokens → scan.infileName = none ∧ scan.outfileName = none) :
    Right tokens (commandChild scan dupOut) g := by
  have hreads (fds : Fds) (hbase : Base fds) : Right tokens (.pure ()) { g with fds := fds } :=
    Ghost.Reads.of_child (g := { g with fds := fds }) hbase hrole
  have hfound (fds : Fds) (hfds : Plain tokens → Base fds) :
      Right tokens (do
        sys (.execvp scan.argv)
        sys (.print "Command not found\n")
        doFree (entries scan.argv ++ [.null])) { g with fds := fds } := by
    refine ⟨⟨true, hrole⟩, fun hplain => ?_⟩
    exact ensures_local ⟨trivial, fun _ => doFree_only (fun _ => trivial) _⟩
      fun _ _ => hreads fds (hfds hplain)
  have hinput (fds : Fds) (hkept : Kept dupOut fds)
      (hfds : Plain tokens → Base fds) :
      Right tokens (do
        if ← redirect scan.infileName (commandInput scan dupOut) then
          sys (.execvp scan.argv)
          sys (.print "Command not found\n")
          doFree (entries scan.argv ++ [.null])) { g with fds := fds } := by
    cases hname : scan.infileName with
    | none => exact hfound fds hfds
    | some name =>
        refine commandInput_ensures (g := { g with fds := fds }) hkept hreads fun fds' => ?_
        refine hfound fds' fun htokens => ?_
        exact nomatch hname.symm.trans (hplain htokens).1
  have hkept : Kept dupOut g.fds := ⟨hbase.stdin, hsaved, hne⟩
  unfold commandChild
  cases hname : scan.outfileName with
  | none => exact hinput g.fds hkept fun _ => hbase
  | some name =>
      refine commandOutput_ensures hbase (hreads g.fds hbase)
        (hinput _ hkept.moved fun htokens => ?_)
      exact nomatch hname.symm.trans (hplain htokens).2

theorem command_ensures (hbase : Base g.fds) (hrole : g.role = .shell)
    (hsaved : g.fds.get dupOut = some (.inherited 1)) (hne : dupOut ≠ stdoutFileno)
    (hplain : Plain tokens → scan.infileName = none ∧ scan.outfileName = none) :
    Right tokens (command scan dupOut) g := by
  refine ⟨hrole, true, ⟨true, rfl, ?_⟩, commandChild_ensures hbase rfl hsaved hne hplain⟩
  exact ensures_local (doFreeExit_none_only (fun _ => trivial) _ _ _)
    fun _ _ => ⟨hbase, .inr (.inl rfl)⟩

end Command

/-! ### A pipeline -/

section Stages

variable {tokens : List Token} {scan : Scan} {dupOut prev : Int} {argv : List Text} {i : Nat}
  {last : Bool} {pipefd : Int × Int} {g : Ghost}

theorem stageStdin_ensures {next : Unit → Prog Reply Unit}
    (hnext : ∀ fds, Right tokens (next ()) { g with fds := fds }) :
    Right tokens (stageStdin i prev >>= next) g := by
  unfold stageStdin
  split
  · exact ensures_dup2_ignored fun _ fds => ensures_close (hnext _)
  · exact hnext g.fds

theorem stageStdout_ensures {next : Unit → Prog Reply Unit}
    (hnext : ∀ fds, Right tokens (next ()) { g with fds := fds }) :
    Right tokens (stageStdout scan i pipefd >>= next) g := by
  unfold stageStdout
  split
  · exact ensures_close (ensures_dup2_ignored fun _ fds => ensures_close (hnext _))
  · exact hnext g.fds

/-- The files of a pipeline can be opened. -/
theorem stageInput_ensures {name : Text} {next : Bool → Prog Reply Unit}
    (hpipes : count .pipe tokens ≠ 0)
    (hnext : ∀ fds, Right tokens (next true) { g with fds := fds }) :
    Right tokens (stageInput scan argv dupOut prev name >>= next) g := by
  unfold stageInput
  rw [Program.bind_assoc, Program.call_bind]
  refine ensures_openRead ?_ fun hzero => absurd hzero hpipes
  rw [if_neg (lowest_ne_neg_one g.fds)]
  exact moved_ensures (hnext _)

theorem stageOutput_ensures {name : Text} {next : Bool → Prog Reply Unit}
    (hpipes : count .pipe tokens ≠ 0)
    (hnext : ∀ fds, Right tokens (next true) { g with fds := fds }) :
    Right tokens (stageOutput scan argv prev name >>= next) g := by
  unfold stageOutput
  rw [Program.bind_assoc, Program.call_bind]
  refine ensures_openWrite ?_ fun hzero => absurd hzero hpipes
  rw [if_neg (lowest_ne_neg_one g.fds)]
  exact moved_ensures (hnext _)

theorem redirect_ensures {name : Option Text} {open' : Text → Prog Reply Bool}
    {next : Bool → Prog Reply Unit}
    (hopen : ∀ name, Right tokens (open' name >>= next) g)
    (hnext : Right tokens (next true) g) : Right tokens (redirect name open' >>= next) g := by
  cases name with
  | none => exact hnext
  | some name => exact hopen name

/-- The child of a stage becomes its command. -/
theorem stageChild_ensures (hpipes : count .pipe tokens ≠ 0) (hrole : g.role = .child last) :
    Right tokens (stageChild scan dupOut i argv prev pipefd) g := by
  have hfound (fds : Fds) : Right tokens (do
      sys (.execvp argv)
      stageNotFound scan i argv) { g with fds := fds } :=
    ⟨⟨last, hrole⟩, fun hplain => absurd hplain.pipe hpipes⟩
  refine stageStdin_ensures fun fds₁ => stageStdout_ensures fun fds₂ => ?_
  have houtput (fds : Fds) : Right tokens (do
      if ← redirect (if i = scan.blockCount then scan.outfileName else none)
          (stageOutput scan argv prev) then
        sys (.execvp argv)
        stageNotFound scan i argv) { g with fds := fds } :=
    redirect_ensures (fun _ => stageOutput_ensures hpipes hfound) (hfound fds)
  exact redirect_ensures (fun _ => stageInput_ensures hpipes houtput) (houtput fds₂)

/-- The number of the stages that are left before these tokens: the first of them is a pipe, or the
first token of the line. -/
def stagesLeft : List Token → Nat
  | [] => 0
  | _ :: ts => count .pipe ts + 1

theorem stagesLeft_dropWhile (cursor : List Token) :
    stagesLeft (cursor.dropWhile fun t => !t.isPipe) = count .pipe cursor := by
  induction cursor with
  | nil => rfl
  | cons t ts ih =>
      by_cases ht : t.type = .pipe
      · rw [List.dropWhile_cons_of_neg (by simp [Token.isPipe, ht]), count_cons, if_pos ht]
        rfl
      · rw [List.dropWhile_cons_of_pos (by simp [Token.isPipe, ht]), ih, count_cons, if_neg ht,
          Nat.add_zero]

theorem count_skipped (t : Token) (ts : List Token) :
    count .pipe (if t.type = .pipe then ts else t :: ts) = count .pipe ts := by
  split_ifs with ht
  · rfl
  · rw [count_cons, if_neg ht, Nat.add_zero]

/-- The shell between two stages. It may close its end of the last pipe. -/
structure Between (i : Nat) (prev : Int) (fds : Fds) : Prop where
  base : Base fds
  prev : 0 < i → prev ≠ stdinFileno ∧ prev ≠ stdoutFileno

theorem Base.openPipe {fds : Fds} (hbase : Base fds) (pipe : Nat) : Base (openPipe pipe fds).2 :=
  ⟨get_openPipe_of_some hbase.stdin, get_openPipe_of_some hbase.stdout⟩

/-- The shell closes its ends of the pipes and waits for the stage. -/
theorem waits_ensures {pipe : Nat} {fds : Fds} {next : Prog Reply Unit}
    (hbetween : Between i prev fds)
    (hnext : ∀ fds', Between (i + 1) (openPipe pipe fds).1.1 fds' →
      Right tokens next ⟨fds', .shell⟩) :
    Right tokens (do
      closeIf (i > 0) prev
      sys (.close (openPipe pipe fds).1.2)
      sys .wait
      next) ⟨(openPipe pipe fds).2, .waits false⟩ := by
  have hbase := hbetween.base.openPipe pipe
  have hread := get_openPipe_readFd pipe fds
  have hwrite := get_openPipe_writeFd pipe fds
  have hrest (fds' : Fds) (hbase' : Base fds') : Right tokens (do
      sys (.close (openPipe pipe fds).1.2)
      sys .wait
      next) ⟨fds', .waits false⟩ := by
    refine ensures_close ⟨false, rfl, hnext _ ⟨?_, fun _ => ?_⟩⟩
    · exact hbase'.put (ne_of_get hwrite hbase.stdin nofun) (ne_of_get hwrite hbase.stdout nofun)
    · exact ⟨ne_of_get hread hbase.stdin nofun, ne_of_get hread hbase.stdout nofun⟩
  unfold closeIf
  split
  · rename_i hi
    obtain ⟨hin, hout⟩ := hbetween.prev hi
    exact ensures_close (hrest _ (hbase.put hin hout))
  · exact hrest _ hbase

/-- There are tokens for every stage, so that the pointer to the next one is not null. -/
theorem stages_ensures (hpipes : count .pipe tokens ≠ 0) {wordsCount left : Nat} {loop : Loop}
    {fds : Fds} (hbetween : Between i loop.prevPipeReadEnd fds)
    (hleft : left = stagesLeft loop.cursor) :
    Right tokens (stages scan wordsCount dupOut left i loop) ⟨fds, .shell⟩ := by
  induction left generalizing i loop fds with
  | zero =>
      exact ensures_local (doFreeExit_none_only (fun _ => trivial) _ _ _)
        fun _ _ => ⟨hbetween.base, .inl rfl⟩
  | succ left ih =>
      rw [stages, Program.call_bind]
      intro pipe
      have hreads : Ghost.Reads ⟨(openPipe pipe fds).2, .shell⟩ :=
        ⟨hbetween.base.openPipe pipe, .inl rfl⟩
      dsimp only
      rw [Prog.ensures_bind]
      refine ensures_local (doFree_only (fun _ => trivial) _) fun _ _ => ?_
      rw [Program.call_bind]
      refine ensures_malloc fun ok => ?_
      cases ok with
      | false =>
          refine ensures_local ⟨trivial, fun _ => ?_⟩ fun _ _ => hreads
          exact (freeName_only (fun _ => trivial) _ _).bind
            fun _ => freeName_only (fun _ => trivial) _ _
      | true =>
          obtain ⟨t, ts, hcursor⟩ : ∃ t ts, loop.cursor = t :: ts := by
            cases hcursor : loop.cursor with
            | nil => exact absurd (hleft.trans (congrArg stagesLeft hcursor)) (Nat.succ_ne_zero left)
            | cons t ts => exact ⟨t, ts, rfl⟩
          rw [hcursor] at hleft ⊢
          change Right tokens (collect scan (if t.type = .pipe then ts else t :: ts) _ >>= _) _
          rw [Right, Prog.ensures_bind]
          refine ensures_local ((collect_only scan _ _).mono fun _ h => h.1)
            fun result hyields => ?_
          cases result with
          | none => exact hreads
          | some loop' =>
              obtain ⟨hprev, hcursor'⟩ := collect_yields hyields
              refine ⟨rfl, false, waits_ensures ⟨hbetween.base, ?_⟩ fun fds' hnext => ih ?_ ?_, ?_⟩
              · rw [hprev]
                exact hbetween.prev
              · exact hnext
              · rw [hcursor', stagesLeft_dropWhile, count_skipped]
                exact Nat.succ.inj hleft
              · exact stageChild_ensures hpipes rfl

end Stages

/-! ### `Exec` -/

theorem launch_ensures {tokens : List Token} {dupOut : Int} {fds : Fds} {scan : Scan}
    (hsteps : Scan.steps tokens {} = some scan)
    (hleading : ¬scan.Rejects → ∀ t ∈ tokens.head?, t.type ≠ .pipe) (hbase : Base fds)
    (hsaved : fds.get dupOut = some (.inherited 1)) (hne : dupOut ≠ stdoutFileno) :
    Right tokens (launch tokens dupOut scan) ⟨fds, .shell⟩ := by
  have hblock : scan.blockCount = count .pipe tokens := (reads_nil.steps hsteps).blockCount
  unfold launch
  split_ifs with hreject hzero
  · exact ensures_local (doFreeExit_only (fun _ => trivial) _ _ _ _ fun _ _ => trivial)
      fun _ _ => ⟨hbase, .inl rfl⟩
  · refine command_ensures hbase rfl hsaved hne fun hplain => ?_
    have hinfile : scan.name .infile = none := Scan.name_steps hsteps hplain.infile rfl
    have houtfile : scan.name .outfile = none := Scan.name_steps hsteps hplain.outfile rfl
    exact ⟨hinfile, houtfile⟩
  · refine stages_ensures (hblock ▸ hzero) ⟨hbase, fun hlt => absurd hlt (lt_irrefl 0)⟩ ?_
    rw [hblock] at hzero ⊢
    cases tokens with
    | nil => exact absurd rfl hzero
    | cons t ts => rw [count_cons, if_neg (hleading hreject t rfl), stagesLeft, Nat.add_zero]

/-- A process that has the standard input and output of the shell has them again when it goes on
with the next line. -/
theorem exec_ensures (tokenizer : Tokenizer)
    (hleading : ∀ t ∈ tokenizer.tokens.head?, t.type = .pipe → Detected tokenizer.tokens)
    {fds : Fds} (hbase : Base fds) :
    Right tokenizer.tokens (exec tokenizer) ⟨fds, .shell⟩ := by
  unfold exec
  dsimp only
  split_ifs with hempty
  · exact ⟨hbase, .inl rfl⟩
  obtain ⟨hin, hout⟩ := hbase.lowest_ne
  have hbase' : Base (fds.put fds.lowest (some (.inherited 1))) := hbase.put hin hout
  have hreads : Ghost.Reads ⟨fds.put fds.lowest (some (.inherited 1)), .shell⟩ :=
    ⟨hbase', .inl rfl⟩
  rw [Program.call_bind]
  refine ensures_dup hbase.stdout ?_
  rw [Program.call_bind]
  refine ensures_malloc fun ok => ?_
  cases ok with
  | false => exact ensures_local ⟨trivial, fun _ => trivial⟩ fun _ _ => hreads
  | true =>
      rw [if_pos rfl, Prog.ensures_bind]
      refine ensures_local (firstPass_only _ _) fun result hyields => ?_
      cases result with
      | none => exact hreads
      | some scan =>
          have hsteps := steps_of_yields hyields
          refine launch_ensures hsteps (fun hreject t ht hpipe => ?_) hbase'
            (Table.get_put_self fds.lowest_nonneg) hout
          exact hreject ((detected_iff tokenizer.length_lt).mp (hleading t ht hpipe) scan hsteps)

end Acos.Shell.Pipe.Session
