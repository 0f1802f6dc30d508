import Acos.Shell.PipelineSystem

/-!
# Pipelines that are stuck

The shell waits for each stage before it forks the next one. Nobody reads from the pipe behind a
stage while the stage is running, so a stage that writes more than fits into the pipe is blocked,
and the shell with it. All other calls of a pipeline come to their end.
-/

namespace Acos.Shell.Pipe

open Program Descriptors Processes Transition

/-- `Exec` has returned in the shell, and all its stages have exited. -/
structure Done (stages : Nat) (s : State) : Prop where
  returned : ∃ fds, s.processes[0]? = some (inShell none fds (.pure ()))
  started : s.processes.length = stages + 1
  exited : ∀ pid process, s.processes[pid]? = some process → 0 < pid →
    ∀ code, process.life ≠ .running code

section Progress

variable {v : Setting} {s s' : State} {pid i : Nat} {g : Ghost} {p : Prog Reply Unit} {fds : Fds}

/-! ### Programs -/

/-- A program that does not wait goes on, or becomes a command. -/
theorem program_enabled {parent : Option Nat} {c : Call} {next : Reply c → Prog Reply Unit}
    (hprocess : s.processes[pid]? = some (inShell parent g.fds (.perform c next)))
    (hright : v.Right (.perform c next) g) (hc : c ≠ .wait) :
    ∃ action s', perform v.capacity v.writes (pid, action) s = some s' ∧
      (∀ other, other ≠ pid → other < s.processes.length →
        s'.processes[other]? = s.processes[other]?) ∧
      ((∃ reply fds, s'.processes[pid]? = some (inShell parent fds (next reply))) ∨
        (∃ i, g.role = .stage i) ∧ ∃ command,
          s'.processes[pid]? = some ⟨parent, g.fds, .running (.other command)⟩) := by
  have hset (process : Proc Command) (other : Nat) (hne : other ≠ pid) :
      (s.processes.set pid process)[other]? = s.processes[other]? :=
    List.getElem?_set_ne hne.symm
  cases c with
  | wait => exact absurd rfl hc
  | nullDereference => exact hright.elim
  | pipe =>
      refine ⟨.pipe, _, by simp only [perform, pipeStep, hprocess]; rfl,
        fun other hne _ => hset _ other hne, .inl ⟨_, _, getElem?_set_of_some hprocess _⟩⟩
  | fork =>
      refine ⟨.fork, _, by simp only [perform, forkStep, hprocess]; rfl,
        fun other hne hlt => ?_, .inl ⟨.parent, g.fds, ?_⟩⟩
      · rw [List.getElem?_append_left (by rwa [List.length_set])]
        exact hset _ other hne
      · have hlt := (List.getElem?_eq_some_iff.mp hprocess).1
        rw [List.getElem?_append_left (by rwa [List.length_set])]
        exact getElem?_set_of_some hprocess _
  | execvp argv =>
      obtain ⟨i, hrole, -⟩ := hright.execvp
      exact ⟨.execvp, _, by simp only [perform, execvpStep, hprocess]; rfl,
        fun other hne _ => hset _ other hne,
        .inr ⟨⟨i, hrole⟩, _, getElem?_set_of_some hprocess _⟩⟩
  | _ =>
      obtain ⟨-, result, hresult, -⟩ := hright
      exact ⟨.call, _, by simp only [perform, callStep, hprocess, hresult]; rfl,
        fun other hne _ => hset _ other hne, .inl ⟨_, _, getElem?_set_of_some hprocess _⟩⟩

/-- The shell goes on when its stage has exited. -/
theorem wait_enabled {child : Nat} {next : Unit → Prog Reply Unit}
    (hshell : s.processes[0]? = some (inShell none fds (.perform .wait next)))
    (hexited : hasExited 0 child s.processes = true) :
    ∃ s', perform v.capacity v.writes (0, .wait child) s = some s' ∧
      s'.processes[0]? = some (inShell none fds (next ())) := by
  refine ⟨_, by simp only [perform, waitStep, hshell, hexited]; rfl, ?_⟩
  have hlt := (List.getElem?_eq_some_iff.mp hshell).1
  exact List.getElem?_set_self (by rwa [List.length_modify])

/-! ### Commands -/

/-- The bytes the stage can still read. -/
def State.available (s : State) : Nat → Nat
  | 0 => s.input
  | j + 1 => s.pipes[j]?.getD 0

/-- How far the command is from its end. -/
def Command.weight (available : Nat) : Command → Nat
  | .ready left eof => 2 * left + 2 * available + if eof then 1 else 3
  | .write left eof => 2 * left + 2 * available + if eof then 2 else 4
  | .read left => 2 * left + 2 * available + 2

/-- The command is in a write to a full pipe. -/
def Blocked (v : Setting) (s : State) (i : Nat) (command : Command) : Prop :=
  (∃ left eof, command = .write left eof) ∧ i < v.blocks ∧ v.capacity ≤ s.pipes[i]?.getD 0

/-- What a step of a command leads to: its exit, or a command that is nearer to its end. -/
def Nearer (s' : State) (i weight : Nat) (fds : Fds) : Prop :=
  s'.processes[i + 1]? = some ⟨some 0, fds, .exited⟩ ∨
    ∃ command : Command,
      s'.processes[i + 1]? = some ⟨some 0, fds, .running (.other command)⟩ ∧
      command.weight (s'.available i) < weight

theorem State.available_goOn (s : State) (pid i : Nat) (process : Proc Command) :
    (s.goOn pid process).available i = s.available i := by
  cases i <;> rfl

/-- What the stage writes is not what it reads. -/
theorem State.available_modify (s : State) (i : Nat) (processes : List (Proc Command)) :
    State.available ⟨processes, s.pipes.modify i (· + 1), s.input⟩ i = s.available i := by
  cases i with
  | zero => rfl
  | succ j =>
      rw [State.available, List.getElem?_modify_ne _ _ (Nat.succ_ne_self j)]
      rfl

theorem read_enabled {code : Code Command} (hwaiting : v.Waiting s i g p)
    (hchild : s.processes[i + 1]? = some ⟨some 0, fds, .running code⟩)
    (hstandard : Standard (source v.infile i) (target v.outfile v.blocks i) i fds) (left : Nat) :
    ∃ eof pipes input,
      s.read (i + 1) (some 0) fds left =
        some ⟨s.processes.set (i + 1) ⟨some 0, fds, .running (.other (.ready left eof))⟩, pipes,
          input⟩ ∧
      (Command.ready left eof).weight (State.available ⟨[], pipes, input⟩ i) <
        (Command.read left).weight (s.available i) := by
  cases i with
  | zero =>
      rw [State.read_eq hstandard.stdin]
      by_cases hinput : 0 < s.input
      · refine ⟨false, _, _, if_pos hinput, ?_⟩
        simp only [Command.weight, State.available, Bool.false_eq_true, if_false]
        omega
      · refine ⟨true, _, _, if_neg hinput, ?_⟩
        simp only [Command.weight, State.available, if_true]
        exact Nat.lt_succ_self _
  | succ j =>
      rw [hwaiting.read_eq hchild hstandard.stdin hstandard.noWriter]
      by_cases hbytes : 0 < s.pipes[j]?.getD 0
      · refine ⟨false, _, _, if_pos hbytes, ?_⟩
        obtain ⟨n, hn⟩ : ∃ n, s.pipes[j]? = some n := by
          cases hpipe : s.pipes[j]? with
          | none =>
              rw [hpipe] at hbytes
              exact absurd hbytes (Nat.lt_irrefl 0)
          | some n => exact ⟨n, rfl⟩
        rw [hn] at hbytes
        simp only [Command.weight, State.available, List.getElem?_modify_eq, hn,
          Bool.false_eq_true, if_false, Option.map_eq_map, Option.map_some, Option.getD_some]
          at hbytes ⊢
        omega
      · refine ⟨true, _, _, if_neg hbytes, ?_⟩
        simp only [Command.weight, State.available, if_true]
        exact Nat.lt_succ_self _

theorem command_enabled {command : Command} (hwaiting : v.Waiting s i g p)
    (hchild : s.processes[i + 1]? = some ⟨some 0, fds, .running (.other command)⟩)
    (hstandard : Standard (source v.infile i) (target v.outfile v.blocks i) i fds) :
    Blocked v s i command ∨ ∃ action s', commandStep v.capacity action (i + 1) s = some s' ∧
      s'.processes[0]? = s.processes[0]? ∧
      Nearer s' i (command.weight (s.available i)) fds := by
  have hset (process : Proc Command) :
      (s.processes.set (i + 1) process)[0]? = s.processes[0]? :=
    List.getElem?_set_ne (Nat.succ_ne_zero i)
  have hself (process : Proc Command) :
      (s.processes.set (i + 1) process)[i + 1]? = some process := getElem?_set_of_some hchild _
  cases command with
  | ready left eof =>
      right
      cases left with
      | succ left =>
          refine ⟨.startWrite, _, by simp only [commandStep, hchild]; rfl, hset _,
            .inr ⟨_, hself _, ?_⟩⟩
          rw [State.available_goOn]
          cases eof <;> simp [Command.weight] <;> omega
      | zero =>
          cases eof with
          | true =>
              exact ⟨.exit, _, by simp only [commandStep, hchild]; rfl, hset _, .inl (hself _)⟩
          | false =>
              refine ⟨.startRead, _, by simp only [commandStep, hchild]; rfl, hset _,
                .inr ⟨_, hself _, ?_⟩⟩
              rw [State.available_goOn]
              simp [Command.weight]
  | write left eof =>
      by_cases hroom : i < v.blocks ∧ v.capacity ≤ s.pipes[i]?.getD 0
      · exact .inl ⟨⟨left, eof, rfl⟩, hroom⟩
      · right
        have hweight : (Command.ready left eof).weight (s.available i) <
            (Command.write left eof).weight (s.available i) := by
          cases eof <;> simp [Command.weight]
        have hwrite := hwaiting.write_eq hstandard.stdout left eof
        by_cases hlast : i < v.blocks
        · rw [if_pos hlast, if_pos (by omega)] at hwrite
          refine ⟨.write, _, by simp only [commandStep, hchild]; exact hwrite, hset _,
            .inr ⟨_, hself _, ?_⟩⟩
          exact (congrArg (Command.weight · _) (s.available_modify i _)).trans_lt hweight
        · rw [if_neg hlast] at hwrite
          refine ⟨.write, _, by simp only [commandStep, hchild]; exact hwrite, hset _,
            .inr ⟨_, hself _, ?_⟩⟩
          rw [State.available_goOn]
          exact hweight
  | read left =>
      right
      obtain ⟨eof, pipes, input, hread, hweight⟩ :=
        read_enabled hwaiting hchild hstandard left
      refine ⟨.read, _, by simp only [commandStep, hchild]; exact hread, hset _,
        .inr ⟨_, hself _, ?_⟩⟩
      cases i <;> exact hweight

/-! ### Progress -/

theorem Setting.Alone.done {value : Unit} (halone : v.Alone s g (.pure value)) :
    Done v.total s := by
  refine ⟨⟨g.fds, halone.shell⟩, halone.right.pure.2 ▸ halone.length, ?_⟩
  rintro pid process hprocess hpid code hlife
  exact hpid.ne' (halone.eq_zero hprocess (by rw [Process.isReaped, hlife]))

/-- If every stage fits into its pipe, the pipeline goes on until it is done. -/
theorem Setting.Inv.progress (hinv : v.Inv s) (hfits : ∀ i, v.Fits i) :
    Done v.total s ∨ ∃ label s', Pipe.perform v.capacity v.writes label s = some s' := by
  cases hinv with
  | @alone g p halone =>
      cases p with
      | pure value => exact .inl halone.done
      | perform c next =>
          right
          by_cases hc : c = .wait
          · subst hc
            obtain ⟨-, ⟨i, hrole⟩, -⟩ := halone.right.wait
            exact nomatch halone.role.symm.trans hrole
          · obtain ⟨action, s', hstep, -⟩ := program_enabled halone.shell halone.right hc
            exact ⟨_, s', hstep⟩
  | @waits g p i fds life hwaiting hchild hstage =>
      right
      cases p with
      | pure value => exact nomatch hwaiting.role.symm.trans hwaiting.right.pure.1
      | perform c next =>
          by_cases hc : c = .wait
          · subst hc
            cases hstage with
            | @program g' p' hrole hright hempty =>
                cases p' with
                | pure value => exact nomatch hrole.symm.trans hright.pure.1
                | perform c' next' =>
                    have hc' : c' ≠ .wait := by
                      rintro rfl
                      obtain ⟨-, ⟨j, hparent⟩, -⟩ := hright.wait
                      exact nomatch hrole.symm.trans hparent
                    obtain ⟨action, s', hstep, -⟩ := program_enabled hchild hright hc'
                    exact ⟨_, s', hstep⟩
            | @command fds command hstandard hpipe =>
                rcases command_enabled hwaiting hchild hstandard with hblocked | henabled
                · obtain ⟨⟨left, eof, rfl⟩, hlast, hfull⟩ := hblocked
                  obtain ⟨n, hn, -, hsum⟩ := hpipe hlast
                  have hle := hfits i hlast
                  have hleft : n + (left + 1) = v.writes i := hsum
                  rw [hn, Option.getD_some] at hfull
                  omega
                · obtain ⟨action, s', hstep, -⟩ := henabled
                  exact ⟨(i + 1, .command action), s', hstep⟩
            | exited hstage =>
                obtain ⟨s', hstep, -⟩ :=
                  wait_enabled hwaiting.shell (hasExited_iff.mpr ⟨_, hchild⟩)
                exact ⟨_, s', hstep⟩
          · obtain ⟨action, s', hstep, -⟩ := program_enabled hwaiting.shell hwaiting.right hc
            exact ⟨_, s', hstep⟩

theorem not_commandStep_of_blocked {action : CommandAction} {pid : Nat} {p : Prog Reply Unit}
    {command : Command} (hwaiting : v.Waiting s i g p)
    (hchild : s.processes[i + 1]? = some ⟨some 0, fds, .running (.other command)⟩)
    (hstandard : Standard (source v.infile i) (target v.outfile v.blocks i) i fds)
    (hblocked : Blocked v s i command) :
    commandStep v.capacity action pid s ≠ some s' := by
  intro hstep
  obtain ⟨⟨left, eof, rfl⟩, hlast, hfull⟩ := hblocked
  unfold commandStep at hstep
  split at hstep
  · rename_i parent fds' command hprocess
    rcases hwaiting.eq_or hprocess rfl with rfl | rfl
    · cases hchild.symm.trans hprocess
      cases action with
      | write =>
          change s.write v.capacity (i + 1) (some 0) fds left eof = some s' at hstep
          rw [hwaiting.write_eq hstandard.stdout, if_pos hlast,
            if_neg (Nat.not_lt.mpr hfull)] at hstep
          exact nomatch hstep
      | startWrite | startRead | read | exit => exact nomatch hstep
    · exact nomatch hwaiting.shell.symm.trans hprocess
  · exact nomatch hstep

/-- Nobody can help a stage that is blocked while the shell waits for it. -/
theorem not_perform_of_blocked {label : Nat × Action} {next : Unit → Prog Reply Unit}
    {command : Command} (hwaiting : v.Waiting s i g (.perform .wait next))
    (hchild : s.processes[i + 1]? = some ⟨some 0, fds, .running (.other command)⟩)
    (hstage : v.StageOk i s.pipes fds (.running (.other command)))
    (hblocked : Blocked v s i command) : perform v.capacity v.writes label s ≠ some s' := by
  intro hstep
  have hinv : v.Inv s := .waits hwaiting hchild hstage
  have hprogram {pid : Nat} {parent : Option Nat} {fds' : Fds} {p : Prog Reply Unit}
      (hprocess : s.processes[pid]? = some (inShell parent fds' p)) : p = .perform .wait next := by
    rcases hwaiting.eq_or hprocess rfl with rfl | rfl
    · exact nomatch hchild.symm.trans hprocess
    · cases hwaiting.shell.symm.trans hprocess
      rfl
  obtain ⟨pid, action⟩ := label
  cases action with
  | call =>
      obtain ⟨ps, hps, -⟩ := Option.map_eq_some_iff.mp hstep
      obtain ⟨_, _, c, _, _, hprocess, hresult, -⟩ := callStep_eq_some hps
      cases hprogram hprocess
      exact nomatch hresult
  | pipe =>
      obtain ⟨ps, hps, -⟩ := Option.map_eq_some_iff.mp hstep
      obtain ⟨_, _, _, hprocess, -⟩ := pipeStep_eq_some hps
      exact nomatch hprogram hprocess
  | fork =>
      obtain ⟨ps, hps, -⟩ := Option.map_eq_some_iff.mp hstep
      obtain ⟨_, _, _, hprocess, -⟩ := forkStep_eq_some hps
      exact nomatch hprogram hprocess
  | wait child =>
      obtain ⟨ps, hps, -⟩ := Option.map_eq_some_iff.mp hstep
      obtain ⟨_, _, _, _, _, hexited, -⟩ := waitStep_eq_some hps
      rcases hwaiting.eq_or hexited rfl with rfl | rfl
      · exact nomatch hchild.symm.trans hexited
      · exact nomatch hwaiting.shell.symm.trans hexited
  | childless =>
      obtain ⟨ps, hps, -⟩ := Option.map_eq_some_iff.mp hstep
      exact hinv.not_childless hps
  | execvp =>
      obtain ⟨ps, hps, -⟩ := Option.map_eq_some_iff.mp hstep
      obtain ⟨_, _, _, _, hprocess, -⟩ := execvpStep_eq_some hps
      exact nomatch hprogram hprocess
  | crash =>
      obtain ⟨ps, hps, -⟩ := Option.map_eq_some_iff.mp hstep
      exact hinv.not_crash hps
  | command action =>
      cases hstage with
      | command hstandard =>
          exact not_commandStep_of_blocked hwaiting hchild hstandard hblocked hstep

end Progress

/-! ### The end of a pipeline -/

section End

variable {tokenizer : Tokenizer} (hwell : WellFormed tokenizer.tokens)
  (hpipes : 0 < count .pipe tokenizer.tokens) {fds : Fds} (hfds : Inherits fds) {capacity : Nat}
  {writes : Nat → Nat}
  (hprogress : ∀ s, Reachable (pipeline tokenizer fds capacity writes) s →
    Done (stageCount tokenizer.tokens) s ∨
      ∃ label s', perform capacity writes label s = some s')

include hwell hpipes hfds hprogress

/-- A command comes to its exit while the shell waits for it. -/
theorem command_exits {next : Unit → Prog Reply Unit} {shellFds : Fds} (n : Nat) {s : State}
    {i : Nat} {fds' : Fds} {command : Command}
    (hreach : Reachable (pipeline tokenizer fds capacity writes) s)
    (hshell : s.processes[0]? = some (inShell none shellFds (.perform .wait next)))
    (hchild : s.processes[i + 1]? = some ⟨some 0, fds', .running (.other command)⟩)
    (hweight : command.weight (s.available i) < n) :
    ∃ s', Reachable (pipeline tokenizer fds capacity writes) s' ∧
      s'.processes[0]? = s.processes[0]? ∧ hasExited 0 (i + 1) s'.processes = true := by
  induction n generalizing s command with
  | zero => exact absurd hweight (Nat.not_lt_zero _)
  | succ n ih =>
      have hinv := inv_of_reachable hwell hpipes hfds hreach
      obtain ⟨g, p, j, hj, -, hwaiting, hstandard, hpipe⟩ := hinv.commandActor hchild
      obtain rfl : i = j := Nat.succ.inj hj
      cases hwaiting.shell.symm.trans hshell
      rcases command_enabled hwaiting hchild hstandard with hblocked | henabled
      · rcases hprogress s hreach with hdone | ⟨label, s', hstep⟩
        · exact absurd rfl (hdone.exited _ _ hchild (Nat.succ_pos i) _)
        · exact absurd hstep
            (not_perform_of_blocked hwaiting hchild (.command hstandard hpipe) hblocked)
      · obtain ⟨action, s', hstep, hzero, hnearer⟩ := henabled
        have hreach' : Reachable (pipeline tokenizer fds capacity writes) s' :=
          .step (i + 1, .command action) hreach hstep
        rcases hnearer with hexited | ⟨command', hchild', hweight'⟩
        · exact ⟨s', hreach', hzero, hasExited_iff.mpr ⟨_, hexited⟩⟩
        · obtain ⟨last, hlast, hsame, hexited⟩ :=
            ih hreach' (hzero.trans hshell) hchild' (by omega)
          exact ⟨last, hlast, hsame.trans hzero, hexited⟩

/-- So does a child on its way to its command. -/
theorem program_exits {next : Unit → Prog Reply Unit} {shellFds : Fds} (p : Prog Reply Unit)
    {s : State} {i : Nat} {fds' : Fds}
    (hreach : Reachable (pipeline tokenizer fds capacity writes) s)
    (hshell : s.processes[0]? = some (inShell none shellFds (.perform .wait next)))
    (hchild : s.processes[i + 1]? = some (inShell (some 0) fds' p)) :
    ∃ s', Reachable (pipeline tokenizer fds capacity writes) s' ∧
      s'.processes[0]? = s.processes[0]? ∧ hasExited 0 (i + 1) s'.processes = true := by
  induction p generalizing s fds' with
  | pure value =>
      cases (inv_of_reachable hwell hpipes hfds hreach).actor hchild with
      | stage _ _ hrole hright => exact nomatch hrole.symm.trans hright.pure.1
  | perform c next' ih =>
      cases (inv_of_reachable hwell hpipes hfds hreach).actor hchild with
      | stage _ _ hrole hright =>
          have hc : c ≠ .wait := by
            rintro rfl
            obtain ⟨-, ⟨j, hparent⟩, -⟩ := hright.wait
            exact nomatch hrole.symm.trans hparent
          obtain ⟨action, s', hstep, hothers, hnext⟩ := program_enabled hchild hright hc
          have hreach' : Reachable (pipeline tokenizer fds capacity writes) s' :=
            .step (i + 1, action) hreach hstep
          have hzero : s'.processes[0]? = s.processes[0]? :=
            hothers 0 (Nat.succ_ne_zero i).symm (List.getElem?_eq_some_iff.mp hshell).1
          have hlast : ∃ last, Reachable (pipeline tokenizer fds capacity writes) last ∧
              last.processes[0]? = s'.processes[0]? ∧
              hasExited 0 (i + 1) last.processes = true := by
            rcases hnext with ⟨reply, fds'', hchild'⟩ | ⟨-, command, hchild'⟩
            · exact ih reply hreach' (hzero.trans hshell) hchild'
            · exact command_exits hwell hpipes hfds hprogress _ hreach' (hzero.trans hshell) hchild'
                (Nat.lt_succ_self _)
          obtain ⟨last, hlast, hsame, hexited⟩ := hlast
          exact ⟨last, hlast, hsame.trans hzero, hexited⟩

/-- A pipeline that never gets stuck comes to its end. -/
theorem exists_done (p : Prog Reply Unit) {s : State} {shellFds : Fds}
    (hreach : Reachable (pipeline tokenizer fds capacity writes) s)
    (hshell : s.processes[0]? = some (inShell none shellFds p)) :
    ∃ s', Reachable (pipeline tokenizer fds capacity writes) s' ∧
      Done (stageCount tokenizer.tokens) s' := by
  induction p generalizing s shellFds with
  | pure value =>
      refine ⟨s, hreach, ?_⟩
      cases (inv_of_reachable hwell hpipes hfds hreach).actor hshell with
      | alone halone => exact halone.done
      | shell hwaiting => exact nomatch hwaiting.role.symm.trans hwaiting.right.pure.1
  | perform c next ih =>
      have hinv := inv_of_reachable hwell hpipes hfds hreach
      have hgoes {g : Ghost}
          (hshell : s.processes[0]? = some (inShell none g.fds (.perform c next)))
          (hright : (settingOf tokenizer.tokens capacity writes).Right (.perform c next) g)
          (hc : c ≠ .wait) (hrole : ∀ i, g.role ≠ .stage i) :
          ∃ s', Reachable (pipeline tokenizer fds capacity writes) s' ∧
            Done (stageCount tokenizer.tokens) s' := by
        obtain ⟨action, s', hstep, -, hnext⟩ := program_enabled hshell hright hc
        rcases hnext with ⟨reply, fds', hshell'⟩ | ⟨⟨i, hstage⟩, -⟩
        · exact ih reply (.step (0, action) hreach hstep) hshell'
        · exact absurd hstage (hrole i)
      cases hinv.actor hshell with
      | @alone g halone =>
          refine hgoes hshell halone.right ?_ fun i hi => nomatch halone.role.symm.trans hi
          rintro rfl
          obtain ⟨-, ⟨i, hrole⟩, -⟩ := halone.right.wait
          exact nomatch halone.role.symm.trans hrole
      | @shell g i fds' life hwaiting hchild hstage =>
          by_cases hc : c = .wait
          · subst hc
            -- the shell goes on as soon as its stage has exited
            obtain ⟨s', hreach', hsame, hexited⟩ :
                ∃ s', Reachable (pipeline tokenizer fds capacity writes) s' ∧
                  s'.processes[0]? = s.processes[0]? ∧ hasExited 0 (i + 1) s'.processes = true := by
              cases hstage with
              | program =>
                  exact program_exits hwell hpipes hfds hprogress _ hreach hshell hchild
              | command =>
                  exact command_exits hwell hpipes hfds hprogress _ hreach hshell hchild
                    (Nat.lt_succ_self _)
              | exited => exact ⟨s, hreach, rfl, hasExited_iff.mpr ⟨_, hchild⟩⟩
            obtain ⟨s'', hstep, hshell''⟩ :=
              wait_enabled (v := settingOf tokenizer.tokens capacity writes) (hsame.trans hshell)
                hexited
            exact ih () (.step (0, .wait (i + 1)) hreach' hstep) hshell''
          · exact hgoes hshell hwaiting.right hc fun j hj => nomatch hwaiting.role.symm.trans hj

end End

/-- A pipeline never gets stuck just if every stage but the last fits into its pipe. -/
theorem pipeline_progress_iff (tokenizer : Tokenizer) (hwell : WellFormed tokenizer.tokens)
    (hpipes : 0 < count .pipe tokenizer.tokens) {fds : Fds} (hfds : Inherits fds) (capacity : Nat)
    (writes : Nat → Nat) :
    (∀ s, Reachable (pipeline tokenizer fds capacity writes) s →
      Done (stageCount tokenizer.tokens) s ∨
        ∃ label s', perform capacity writes label s = some s') ↔
    Refused tokenizer.tokens ∨ ∀ i, i < count .pipe tokenizer.tokens → writes i ≤ capacity := by
  have hfits : (∀ i, (settingOf tokenizer.tokens capacity writes).Fits i) ↔
      Refused tokenizer.tokens ∨ ∀ i, i < count .pipe tokenizer.tokens → writes i ≤ capacity := by
    unfold Setting.Fits settingOf stageCount
    by_cases hrefused : Refused tokenizer.tokens
    · simp [hrefused]
    · simp [hrefused]
  rw [← hfits]
  constructor
  · intro hprogress
    have hstart : Reachable (pipeline tokenizer fds capacity writes)
        ⟨[inShell none fds (exec tokenizer)], [], 0⟩ := .init ⟨rfl, rfl⟩
    obtain ⟨s, hreach, hdone⟩ := exists_done hwell hpipes hfds hprogress _ hstart rfl
    obtain ⟨fds', hshell⟩ := hdone.returned
    cases (inv_of_reachable hwell hpipes hfds hreach).actor hshell with
    | alone halone =>
        intro i hi
        refine halone.fits i ?_ hi
        rw [halone.right.pure.2]
        exact hi.trans_le (Nat.sub_le _ 1)
    | shell hwaiting => exact nomatch hwaiting.role.symm.trans hwaiting.right.pure.1
  · exact fun hfits s hreach => (inv_of_reachable hwell hpipes hfds hreach).progress hfits

theorem wordPipeline_progress :
    WellFormed wordPipeline.tokens ∧ 0 < count .pipe wordPipeline.tokens ∧ Inherits standardFds ∧
      ∀ s, Reachable (pipeline wordPipeline standardFds 1 fun _ => 1) s →
        Done (stageCount wordPipeline.tokens) s ∨
          ∃ label s', perform 1 (fun _ => 1) label s = some s' :=
  ⟨wordPipeline_wellFormed, by decide, standardFds_inherits,
    (pipeline_progress_iff wordPipeline wordPipeline_wellFormed (by decide) standardFds_inherits 1
      fun _ => 1).mpr (.inr fun _ _ => le_rfl)⟩

/-- The shell waits for its first stage, which is in a write and has written one byte. -/
def State.writesSecond (s : State) : Bool :=
  match s.processes, s.pipes with
  | [⟨none, _, .running (.program (.perform .wait _))⟩,
      ⟨some 0, _, .running (.other (.write _ _))⟩], [1] => true
  | _, _ => false

/-- The first stage has filled its pipe and is in its next write. The shell waits for it, and the
stage that would read from the pipe has not been forked. -/
theorem wordPipeline_stuck :
    ∃ s, Reachable (pipeline wordPipeline standardFds 1 fun _ => 2) s ∧
      ¬ Done (stageCount wordPipeline.tokens) s ∧
      ∀ label, perform 1 (fun _ => 2) label s = none := by
  let start : State := ⟨[inShell none standardFds (exec wordPipeline)], [], 0⟩
  let labels : List (Nat × Action) :=
    [(0, .call), (0, .call), (0, .call), (0, .call), (0, .pipe), (0, .call), (0, .call), (0, .call),
      (0, .call), (0, .call), (0, .fork), (1, .call), (1, .call), (1, .call), (1, .execvp),
      (1, .command .startWrite), (1, .command .write), (1, .command .startWrite), (0, .call)]
  have hview : (execute (perform 1 fun _ => 2) labels start).any State.writesSecond = true := by
    decide
  obtain ⟨⟨processes, pipes, input⟩, hlast, hwrites⟩ := (Option.any_eq_true _ _).mp hview
  have hstart : Reachable (pipeline wordPipeline standardFds 1 fun _ => 2) start :=
    .init ⟨rfl, rfl⟩
  have hreach := hstart.execute hlast
  have hinv := inv_of_reachable wordPipeline_wellFormed (by decide) standardFds_inherits hreach
  unfold State.writesSecond at hwrites
  split at hwrites
  · rename_i hprocesses hpipes
    obtain rfl : processes = _ := hprocesses
    obtain rfl : pipes = _ := hpipes
    obtain ⟨g, p, i, hi, -, hwaiting, hstandard, hpipe⟩ :=
      hinv.commandActor (rfl : (_ : List (Proc Command))[1]? = _)
    obtain rfl : 0 = i := Nat.succ.inj hi
    cases hwaiting.shell
    have hstages : stageCount wordPipeline.tokens = 2 := by decide
    refine ⟨_, hreach, fun hdone => ?_, fun label => ?_⟩
    · exact nomatch hdone.started.trans (congrArg Nat.succ hstages)
    rw [Option.eq_none_iff_forall_ne_some]
    intro s'
    exact not_perform_of_blocked hwaiting rfl (.command hstandard hpipe)
      ⟨⟨_, _, rfl⟩, by decide, le_rfl⟩
  · exact nomatch hwrites

end Acos.Shell.Pipe
