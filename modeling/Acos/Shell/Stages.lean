import Acos.Shell.FirstPass

/-!
# The processes of a line

What the children of the shell do: the calls each of them can make, whatever the replies are, and
that it gets to its command where its calls succeed. In the shell itself, the second pass collects
for every stage the words of its command, and the loop forks one child for every command.
-/

namespace Acos.Shell.Pipe

open Program

/-! ## The calls of a child -/

/-- The calls of a process that runs one command with these arguments and files. -/
def StageCall (argv : List Text) (infile outfile : Option Text) : Call → Prop
  | .execvp args => args = argv
  | .openRead name => infile = some name
  | .openWrite name => outfile = some name
  | .print text => text ≠ "Syntax error\n"
  | .fork => False
  | _ => True

section

variable {argv : List Text} {infile outfile : Option Text}

theorem stage_failed_only (entries : List Block) (infileName outfileName : Option Text) :
    (do
      doFreeExit entries (some "I/O error") infileName outfileName
      return false : Prog Reply Bool).Only (StageCall argv infile outfile) := by
  refine (doFreeExit_only (fun _ => trivial) entries _ _ _ fun msg hmsg => ?_).bind
    fun _ => trivial
  cases Option.mem_some_iff.mp hmsg
  simp [StageCall]

/-- The end of a redirection that has been made. -/
theorem stage_redirected_only (fd : Int) (block : Block) :
    (do
      sys (.close fd)
      sys (.free block)
      return true : Prog Reply Bool).Only (StageCall argv infile outfile) :=
  .call_bind trivial fun _ => .call_bind trivial fun _ => trivial

/-- The file is moved to its standard descriptor. -/
theorem stage_moved_only (fd fileno : Int) (block : Block) (entries : List Block)
    (infileName outfileName : Option Text) :
    (do
      if ← sys (.dup2 fd fileno) then
        sys (.close fd)
        sys (.free block)
        return true
      sys (.close fd)
      doFreeExit entries (some "I/O error") infileName outfileName
      return false : Prog Reply Bool).Only (StageCall argv infile outfile) := by
  refine .call_bind trivial fun moved => ?_
  cases moved with
  | true => exact stage_redirected_only _ _
  | false => exact .call_bind trivial fun _ => stage_failed_only _ _ _

theorem commandOutput_only (scan : Scan) {name : Text} (hname : outfile = some name) :
    (commandOutput scan name).Only (StageCall argv infile outfile) := by
  refine .call_bind hname fun fd => ?_
  split_ifs
  · exact stage_failed_only _ _ _
  · exact stage_moved_only _ _ _ _ _ _
  · exact stage_redirected_only _ _

theorem commandInput_only (scan : Scan) (dupOut : Int) {name : Text} (hname : infile = some name) :
    (commandInput scan dupOut name).Only (StageCall argv infile outfile) := by
  refine .call_bind hname fun fd => ?_
  split_ifs
  · exact .call_bind trivial fun _ => stage_failed_only _ _ _
  · exact stage_moved_only _ _ _ _ _ _
  · exact stage_redirected_only _ _

theorem closeIf_only {P : Call → Prop} {fd : Int} (hclose : P (.close fd)) (condition : Prop)
    [Decidable condition] : (closeIf condition fd).Only P := by
  unfold closeIf
  split
  · exact .call hclose
  · trivial

theorem stageInput_only (scan : Scan) (args : List Text) (dupOut prevPipeReadEnd : Int)
    {name : Text} (hname : infile = some name) :
    (stageInput scan args dupOut prevPipeReadEnd name).Only (StageCall argv infile outfile) := by
  refine .call_bind hname fun fd => ?_
  split_ifs
  · exact (closeIf_only trivial _).bind fun _ => .call_bind trivial fun _ =>
      stage_failed_only _ _ _
  · exact stage_moved_only _ _ _ _ _ _

theorem stageOutput_only (scan : Scan) (args : List Text) (prevPipeReadEnd : Int)
    {name : Text} (hname : outfile = some name) :
    (stageOutput scan args prevPipeReadEnd name).Only (StageCall argv infile outfile) := by
  refine .call_bind hname fun fd => ?_
  split_ifs
  · exact (closeIf_only trivial _).bind fun _ => stage_failed_only _ _ _
  · exact stage_moved_only _ _ _ _ _ _

theorem redirect_only {P : Call → Prop} {name : Option Text} {open' : Text → Prog Reply Bool}
    (hopen : ∀ text ∈ name, (open' text).Only P) : (redirect name open').Only P := by
  cases name with
  | none => trivial
  | some text => exact hopen text rfl

end

/-- The child of a single command. -/
theorem commandChild_only (scan : Scan) (dupOut : Int) :
    (commandChild scan dupOut).Only (StageCall scan.argv scan.infileName scan.outfileName) := by
  refine (redirect_only fun name hname => commandOutput_only scan hname).bind fun written => ?_
  cases written with
  | false => trivial
  | true =>
      refine (redirect_only fun name hname => commandInput_only scan dupOut hname).bind
        fun read => ?_
      cases read with
      | false => trivial
      | true =>
          exact .call_bind rfl fun _ => .call_bind (by simp [StageCall]) fun _ =>
            doFree_only (fun _ => trivial) _

theorem stageStdin_only {argv : List Text} {infile outfile : Option Text} (i : Nat)
    (prevPipeReadEnd : Int) :
    (stageStdin i prevPipeReadEnd).Only (StageCall argv infile outfile) := by
  unfold stageStdin
  split
  · exact .call_bind trivial fun _ => .call trivial
  · trivial

theorem stageStdout_only {argv : List Text} {infile outfile : Option Text} (scan : Scan)
    (i : Nat) (pipefd : Int × Int) :
    (stageStdout scan i pipefd).Only (StageCall argv infile outfile) := by
  unfold stageStdout
  split
  · exact .call_bind trivial fun _ => .call_bind trivial fun _ => .call trivial
  · trivial

theorem stageNotFound_only {argv : List Text} {infile outfile : Option Text} (scan : Scan)
    (i : Nat) (args : List Text) :
    (stageNotFound scan i args).Only (StageCall argv infile outfile) := by
  refine .call_bind (by simp [StageCall]) fun _ => ?_
  split
  · exact doFreeExit_none_only (fun _ => trivial) _ _ _
  · split
    · exact doFree_only (fun _ => trivial) _
    · exact (doFree_only (fun _ => trivial) _).bind fun _ => .call trivial

/-- The child of one stage. Only the first stage has an input file and only the last one an output
file. -/
theorem stageChild_only (scan : Scan) (dupOut : Int) (i : Nat) (argv : List Text)
    (prevPipeReadEnd : Int) (pipefd : Int × Int) :
    (stageChild scan dupOut i argv prevPipeReadEnd pipefd).Only
      (StageCall argv (if i = 0 then scan.infileName else none)
        (if i = scan.blockCount then scan.outfileName else none)) := by
  refine (stageStdin_only i prevPipeReadEnd).bind fun _ => ?_
  refine (stageStdout_only scan i pipefd).bind fun _ => ?_
  refine (redirect_only fun name hname => stageInput_only scan argv dupOut _ hname).bind
    fun read => ?_
  cases read with
  | false => trivial
  | true =>
      refine (redirect_only fun name hname => stageOutput_only scan argv _ hname).bind
        fun written => ?_
      cases written with
      | false => trivial
      | true => exact .call_bind rfl fun _ => stageNotFound_only scan i argv

/-! ## A child gets to its command -/

/-- An environment in which memory is not short and the calls for files and descriptors succeed. -/
structure Serves (env : Env Reply) : Prop extends Allocates env where
  dup2 : ∀ past oldfd newfd, env past (.dup2 oldfd newfd) = some true
  close : ∀ past fd, env past (.close fd) = some ()
  openRead : ∀ past name, ∃ fd, fd ≠ -1 ∧ env past (.openRead name) = some fd
  openWrite : ∀ past name, ∃ fd, fd ≠ -1 ∧ env past (.openWrite name) = some fd

/-- An environment in which every call succeeds. The shell stays the parent at a fork. -/
def obligingEnv : Env Reply
  | _, .dup _ => some 9
  | _, .dup2 _ _ => some true
  | _, .close _ => some ()
  | _, .pipe => some (some (3, 4))
  | _, .fork => some .parent
  | _, .wait => some ()
  | _, .openRead _ => some 5
  | _, .openWrite _ => some 5
  | _, .execvp _ => none
  | _, .malloc _ _ => some true
  | _, .free _ => some ()
  | _, .print _ => some ()
  | _, .perror _ => some ()
  | _, .nullDereference => none

theorem obligingEnv_serves : Serves obligingEnv where
  malloc _ _ _ := rfl
  free _ _ := rfl
  print _ _ := rfl
  perror _ _ := rfl
  dup2 _ _ _ := rfl
  close _ _ := rfl
  openRead _ _ := ⟨5, (by decide : (5 : Int) ≠ -1), rfl⟩
  openWrite _ _ := ⟨5, (by decide : (5 : Int) ≠ -1), rfl⟩

/-- The redirection opens its file and lets the child go on. -/
def Redirects (env : Env Reply) (p : Prog Reply Bool) (c : Call) : Prop :=
  ∀ past, ∃ events, Returns env past p events true ∧ c ∈ events.map Sigma.fst

/-- After the file has been opened. -/
theorem Redirects.of_open {env : Env Reply} {c : Call} {next : Reply c → Prog Reply Bool}
    (fails : Reply c → Prop)
    (hopen : ∀ past, ∃ reply, ¬ fails reply ∧ env past c = some reply)
    (hnext : ∀ past reply, ¬ fails reply → ∃ events, Returns env past (next reply) events true) :
    Redirects env (call c >>= next) c := by
  intro past
  obtain ⟨reply, hreply, hanswer⟩ := hopen past
  obtain ⟨events, hreturns⟩ := hnext (past ++ [⟨c, reply⟩]) reply hreply
  exact ⟨_, (Returns.call hanswer).bind hreturns, by simp⟩

theorem redirect_returns {env : Env Reply} {name : Option Text} {open' : Text → Prog Reply Bool}
    {opening : Text → Call} (hopen : ∀ text ∈ name, Redirects env (open' text) (opening text))
    (past : List (Event Reply)) :
    ∃ events, Returns env past (redirect name open') events true ∧
      ∀ text ∈ name, opening text ∈ events.map Sigma.fst := by
  cases name with
  | none => exact ⟨[], .pure env past true, nofun⟩
  | some text =>
      obtain ⟨events, hreturns, hmem⟩ := hopen text rfl past
      refine ⟨events, hreturns, fun text' htext => ?_⟩
      rwa [← Option.mem_some_iff.mp htext]

section

variable {env : Env Reply} (henv : Serves env)

include henv

theorem redirected_returns (past : List (Event Reply)) (fd : Int) (block : Block) :
    ∃ events, Returns env past (do
      sys (.close fd)
      sys (.free block)
      return true) events true :=
  ⟨_, (Returns.call (henv.close past fd)).bind
    ((Returns.call (henv.free _ block)).bind (.pure env _ true))⟩

theorem moved_returns (past : List (Event Reply)) (fd newfd : Int) (block : Block)
    (failed : Prog Reply Bool) :
    ∃ events, Returns env past (do
      if ← sys (.dup2 fd newfd) then
        sys (.close fd)
        sys (.free block)
        return true
      else failed) events true := by
  obtain ⟨events, hreturns⟩ := redirected_returns henv
    (past ++ [⟨.dup2 fd newfd, true⟩]) fd block
  exact ⟨_, (Returns.call (henv.dup2 past fd newfd)).bind hreturns⟩

theorem commandOutput_redirects (scan : Scan) (name : Text) :
    Redirects env (commandOutput scan name) (.openWrite name) := by
  refine .of_open (fun fd => fd = -1) (fun past => henv.openWrite past name) ?_
  intro past fd hfd
  rw [if_neg hfd]
  split
  · exact moved_returns henv past fd _ _ _
  · exact redirected_returns henv past fd _

theorem commandInput_redirects (scan : Scan) (dupOut : Int) (name : Text) :
    Redirects env (commandInput scan dupOut name) (.openRead name) := by
  refine .of_open (fun fd => fd = -1) (fun past => henv.openRead past name) ?_
  intro past fd hfd
  rw [if_neg hfd]
  split
  · exact moved_returns henv past fd _ _ _
  · exact redirected_returns henv past fd _

theorem stageInput_redirects (scan : Scan) (argv : List Text) (dupOut prevPipeReadEnd : Int)
    (name : Text) :
    Redirects env (stageInput scan argv dupOut prevPipeReadEnd name) (.openRead name) := by
  refine .of_open (fun fd => fd = -1) (fun past => henv.openRead past name) ?_
  intro past fd hfd
  rw [if_neg hfd]
  exact moved_returns henv past fd _ _ _

theorem stageOutput_redirects (scan : Scan) (argv : List Text) (prevPipeReadEnd : Int)
    (name : Text) :
    Redirects env (stageOutput scan argv prevPipeReadEnd name) (.openWrite name) := by
  refine .of_open (fun fd => fd = -1) (fun past => henv.openWrite past name) ?_
  intro past fd hfd
  rw [if_neg hfd]
  exact moved_returns henv past fd _ _ _

end

/-- The process opens its files and then executes its command. -/
def Runs (env : Env Reply) (past : List (Event Reply)) (p : Prog Reply Unit) (argv : List Text)
    (infile outfile : Option Text) : Prop :=
  .execvp argv ∈ (p.run env past).calls ∧
    (∀ name ∈ infile, .openRead name ∈ (p.run env past).calls) ∧
    ∀ name ∈ outfile, .openWrite name ∈ (p.run env past).calls

section

variable {env : Env Reply} (henv : Serves env)

include henv

theorem commandChild_runs (past : List (Event Reply)) (scan : Scan) (dupOut : Int) :
    Runs env past (commandChild scan dupOut) scan.argv scan.infileName scan.outfileName := by
  obtain ⟨writing, hwritten, hwrite⟩ := redirect_returns
    (fun name (_ : name ∈ scan.outfileName) => commandOutput_redirects henv scan name) past
  obtain ⟨reading, hread, hreadCall⟩ := redirect_returns
    (fun name (_ : name ∈ scan.infileName) => commandInput_redirects henv scan dupOut name)
    (past ++ writing)
  unfold Runs commandChild
  rw [hwritten.calls_bind, if_pos rfl, hread.calls_bind, if_pos rfl]
  refine ⟨?_, fun name hname => ?_, fun name hname => ?_⟩
  · exact List.mem_append_right _ (List.mem_append_right _ (mem_calls_perform _))
  · exact List.mem_append_right _ (List.mem_append_left _ (hreadCall name hname))
  · exact List.mem_append_left _ (hwrite name hname)

theorem stageStdin_returns (past : List (Event Reply)) (i : Nat) (prevPipeReadEnd : Int) :
    ∃ events, Returns env past (stageStdin i prevPipeReadEnd) events () := by
  unfold stageStdin
  split
  · exact ⟨_, (Returns.call (henv.dup2 ..)).bind (.call (henv.close ..))⟩
  · exact ⟨[], .pure env past ()⟩

theorem stageStdout_returns (past : List (Event Reply)) (scan : Scan) (i : Nat)
    (pipefd : Int × Int) :
    ∃ events, Returns env past (stageStdout scan i pipefd) events () := by
  unfold stageStdout
  split
  · exact ⟨_, (Returns.call (henv.close ..)).bind
      ((Returns.call (henv.dup2 ..)).bind (.call (henv.close ..)))⟩
  · exact ⟨[], .pure env past ()⟩

theorem stageChild_runs (past : List (Event Reply)) (scan : Scan) (dupOut : Int) (i : Nat)
    (argv : List Text) (prevPipeReadEnd : Int) (pipefd : Int × Int) :
    Runs env past (stageChild scan dupOut i argv prevPipeReadEnd pipefd) argv
      (if i = 0 then scan.infileName else none)
      (if i = scan.blockCount then scan.outfileName else none) := by
  obtain ⟨stdin, hstdin⟩ := stageStdin_returns henv past i prevPipeReadEnd
  obtain ⟨stdout, hstdout⟩ := stageStdout_returns henv (past ++ stdin) scan i pipefd
  obtain ⟨reading, hread, hreadCall⟩ := redirect_returns
    (fun name (_ : name ∈ if i = 0 then scan.infileName else none) =>
      stageInput_redirects henv scan argv dupOut prevPipeReadEnd name) (past ++ stdin ++ stdout)
  obtain ⟨writing, hwritten, hwrite⟩ := redirect_returns
    (fun name (_ : name ∈ if i = scan.blockCount then scan.outfileName else none) =>
      stageOutput_redirects henv scan argv prevPipeReadEnd name)
    (past ++ stdin ++ stdout ++ reading)
  have hcalls : ((stageChild scan dupOut i argv prevPipeReadEnd pipefd).run env past).calls =
      stdin.map Sigma.fst ++ (stdout.map Sigma.fst ++ (reading.map Sigma.fst ++
        (writing.map Sigma.fst ++ ((call (.execvp argv) >>= fun _ =>
          stageNotFound scan i argv).run env
            (past ++ stdin ++ stdout ++ reading ++ writing)).calls))) := by
    unfold stageChild
    rw [hstdin.calls_bind, hstdout.calls_bind, hread.calls_bind, if_pos rfl, hwritten.calls_bind,
      if_pos rfl]
  unfold Runs
  rw [hcalls]
  simp only [List.mem_append]
  refine ⟨?_, fun name hname => ?_, fun name hname => ?_⟩
  · exact .inr (.inr (.inr (.inr (mem_calls_perform _))))
  · exact .inr (.inr (.inl (hreadCall name hname)))
  · exact .inr (.inr (.inr (.inl (hwrite name hname))))

end

/-! ## The shell does not report an error any more -/

theorem StageCall.ne_report {argv : List Text} {infile outfile : Option Text} (c : Call)
    (hc : StageCall argv infile outfile c) : c ≠ reportCall := by
  rintro rfl
  exact hc rfl

/-- Memory management and messages other than the report. -/
def Call.Calm (c : Call) : Prop := c.Local ∧ c ≠ reportCall

theorem free_calm (block : Block) : Call.Calm (.free block) := ⟨trivial, by simp [reportCall]⟩

theorem perror_calm (text : String) : Call.Calm (.perror text) := ⟨trivial, by simp [reportCall]⟩

theorem malloc_calm (block : Block) (size : Nat) : Call.Calm (.malloc block size) :=
  ⟨trivial, by simp [reportCall]⟩

theorem collect_only (scan : Scan) (tokens : List Token) (loop : Loop) :
    (collect scan tokens loop).Only Call.Calm := by
  induction tokens generalizing loop with
  | nil => trivial
  | cons t ts ih =>
      unfold collect
      cases t.type with
      | pipe => trivial
      | infile => exact ih _
      | outfile => exact ih _
      | word =>
          simp only
          split
          · exact ih _
          · refine .call_bind (malloc_calm _ _) fun allocated => ?_
            cases allocated with
            | true => exact ih _
            | false =>
                exact .call_bind (perror_calm _) fun _ =>
                  (doFreeExit_none_only free_calm (entries loop.argv) scan.infileName
                    scan.outfileName).bind fun _ => trivial

/-- The second pass stops at the next pipe, and leaves the pipe from the stage before alone. -/
theorem collect_yields {scan : Scan} {cursor : List Token} {loop loop' : Loop}
    (hyields : (collect scan cursor loop).Yields (some loop')) :
    loop'.prevPipeReadEnd = loop.prevPipeReadEnd ∧
      loop'.cursor = cursor.dropWhile fun t => !t.isPipe := by
  induction cursor generalizing loop with
  | nil =>
      cases hyields
      exact ⟨rfl, rfl⟩
  | cons t ts ih =>
      unfold collect at hyields
      cases ht : t.type with
      | pipe =>
          simp only [ht] at hyields
          cases hyields
          exact ⟨rfl, (List.dropWhile_cons_of_neg (by simp [Token.isPipe, ht])).symm⟩
      | infile | outfile =>
          simp only [ht] at hyields
          rw [List.dropWhile_cons_of_pos (by simp [Token.isPipe, ht])]
          have hrest := ih hyields
          exact hrest
      | word =>
          simp only [ht] at hyields
          rw [List.dropWhile_cons_of_pos (by simp [Token.isPipe, ht])]
          split_ifs at hyields
          · have hrest := ih hyields
            exact hrest
          · obtain ⟨ok, hyields⟩ := hyields
            cases ok with
            | true =>
                have hrest := ih hyields
                exact hrest
            | false =>
                obtain ⟨_, hfrees⟩ := hyields
                exact absurd hfrees Prog.not_yields_none

theorem prevPipeReadEnd_of_yields {scan : Scan} {cursor : List Token} {loop loop' : Loop}
    (hyields : (collect scan cursor loop).Yields (some loop')) :
    loop'.prevPipeReadEnd = loop.prevPipeReadEnd := (collect_yields hyields).1

theorem command_only (scan : Scan) (dupOut : Int) :
    (command scan dupOut).Only (· ≠ reportCall) := by
  have hfree : ∀ block, Call.free block ≠ reportCall := fun block => (free_calm block).2
  refine .call_bind (by simp [reportCall]) fun pid => ?_
  cases pid with
  | failed =>
      exact .call_bind (by simp [reportCall]) fun _ => doFreeExit_none_only hfree _ _ _
  | child => exact (commandChild_only scan dupOut).mono StageCall.ne_report
  | parent =>
      exact .call_bind (by simp [reportCall]) fun _ => doFreeExit_none_only hfree _ _ _

theorem skipPipe_only (cursor : List Token) : (skipPipe cursor).Only (· ≠ reportCall) := by
  cases cursor with
  | nil => exact .call_bind (by simp [reportCall]) fun never => nomatch never
  | cons t ts => trivial

theorem stages_only (scan : Scan) (wordsCount : Nat) (dupOut : Int) (left i : Nat) (loop : Loop) :
    (stages scan wordsCount dupOut left i loop).Only (· ≠ reportCall) := by
  have hfree : ∀ block, Call.free block ≠ reportCall := fun block => (free_calm block).2
  induction left generalizing i loop with
  | zero => exact doFreeExit_none_only hfree _ _ _
  | succ left ih =>
      refine .call_bind (by simp [reportCall]) fun pipefd => ?_
      cases pipefd with
      | none => exact .call_bind (by simp [reportCall]) fun _ => doFreeExit_none_only hfree _ _ _
      | some pipefd =>
          refine (doFree_only hfree _).bind fun _ =>
            .call_bind (malloc_calm _ _).2 fun allocated => ?_
          cases allocated with
          | false =>
              exact .call_bind (by simp [reportCall]) fun _ =>
                (freeName_only hfree _ _).bind fun _ => freeName_only hfree _ _
          | true =>
              refine (skipPipe_only _).bind fun cursor => ?_
              refine ((collect_only scan cursor _).mono fun _ hc => hc.2).bind fun collected => ?_
              cases collected with
              | none => trivial
              | some loop =>
                  refine .call_bind (by simp [reportCall]) fun pid => ?_
                  cases pid with
                  | failed =>
                      exact .call_bind (by simp [reportCall]) fun _ =>
                        doFreeExit_none_only hfree _ _ _
                  | child => exact (stageChild_only ..).mono StageCall.ne_report
                  | parent =>
                      exact (closeIf_only (by simp [reportCall]) _).bind fun _ =>
                        .call_bind (by simp [reportCall]) fun _ =>
                          .call_bind (by simp [reportCall]) fun _ => ih _ _

theorem launch_only {scan : Scan} (haccepts : ¬ scan.Rejects) (tokens : List Token)
    (dupOut : Int) : (launch tokens dupOut scan).Only (· ≠ reportCall) := by
  unfold launch
  rw [if_neg haccepts]
  split
  · exact command_only scan dupOut
  · exact stages_only scan _ dupOut _ _ _

end Acos.Shell.Pipe
