import Acos.Shell.Isolation

/-!
# All lines are processed

As long as the failures are harmless, some process can go on until all lines have been read and all
processes have exited, provided that the commands come to their ends. Between two lines the processes
only go through what is left of their programs, so that this cannot take for ever.
-/

namespace Acos.Shell.Pipe.Session

open Program Descriptors Processes Transition Relation

variable {contents : Text → List Line} {lines : List Line} {s s' : State} {pid : Nat}
  {parent : Option Nat} {fds : Fds} {g : Ghost}

/-! ### Something can happen -/

/-- A step that is harmless can be taken. -/
def CanStep (contents : Text → List Line) (s : State) : Prop :=
  ∃ label next, Harmless label s ∧ perform contents label s = some next

theorem canStep_of_isSome (label : Nat × Action) (hharmless : Harmless label s)
    (hsome : (perform contents label s).isSome = true) : CanStep contents s := by
  obtain ⟨next, hnext⟩ := Option.isSome_iff_exists.mp hsome
  exact ⟨label, next, hharmless, hnext⟩

/-- A call that concerns the descriptors only is answered. -/
theorem canStep_call {c : Call} {next : Reply c → Prog Reply Unit}
    (hprocess : s.processes[pid]? = some (inShell parent fds (.perform c next)))
    (heffect : (effect true c fds).isSome = true) : CanStep contents s := by
  refine canStep_of_isSome (pid, .call true) nofun ?_
  simp only [perform, callStep, hprocess, Option.isSome_map, heffect]

/-- A process that does not wait can go on with its program. -/
theorem canStep_perform {c : Call} {next : Reply c → Prog Reply Unit}
    (hprocess : s.processes[pid]? = some (inShell parent g.fds (.perform c next)))
    (hright : Right (s.work pid).tokens (.perform c next) g) (hwait : c ≠ .wait) :
    CanStep contents s := by
  cases c with
  | wait => exact absurd rfl hwait
  | nullDereference => exact absurd hright Right.not_nullDereference
  | pipe =>
      refine canStep_of_isSome (pid, .pipe) trivial ?_
      simp only [perform, pipeStep, hprocess, Option.isSome_map, Option.isSome_some]
  | fork =>
      refine canStep_of_isSome (pid, .fork) trivial ?_
      simp only [perform, forkStep, hprocess, Option.isSome_map, Option.isSome_some]
  | execvp argv =>
      refine canStep_of_isSome (pid, .found) trivial ?_
      simp only [perform, execvpStep, hprocess, Option.isSome_map, Option.isSome_some]
  | dup fd =>
      refine canStep_call hprocess ?_
      cases hget : g.fds.get fd <;> simp only [effect, hget, Option.isSome_some]
  | dup2 oldfd newfd =>
      refine canStep_call hprocess ?_
      cases hget : g.fds.get oldfd <;> simp only [effect, hget, Option.isSome_some]
  | close | openRead | openWrite | malloc | free | print | perror =>
      exact canStep_call hprocess rfl

/-- A process between two lines reads the next one, or exits. -/
theorem canStep_main (hprocess : s.processes[pid]? = some (inShell parent fds (.pure ())))
    (hbase : Base fds) (hproper : ∀ line ∈ s.remaining.head?, Proper line) :
    CanStep contents s := by
  refine canStep_of_isSome (pid, .main none) hproper ?_
  simp only [perform, mainStep, hprocess, hbase.stdin, State.getline]
  cases s.remaining.head? with
  | none => rfl
  | some line =>
      dsimp only
      split_ifs
      · rfl
      · rfl

/-- A process whose child has exited can wait for it, or has something to do before. -/
theorem canStep_waits {p : Prog Reply Unit} {child : Nat} {last : Bool} {fds' : Fds}
    (hprocess : s.processes[pid]? = some (inShell parent g.fds p))
    (hright : Right (s.work pid).tokens p g) (hrole : g.role = .waits last)
    (hchild : s.processes[child]? = some ⟨some pid, fds', .exited⟩) : CanStep contents s := by
  cases p with
  | pure value =>
      -- only a process that does not wait for a child returns from `Exec`
      rcases hright.pure.role with hshell | hdone | hlast
      · cases hrole.symm.trans hshell
      · cases hrole.symm.trans hdone
      · cases hrole.symm.trans hlast
  | perform c next =>
      by_cases hwait : c = .wait
      · subst hwait
        have hexited : hasExited pid child s.processes = true := hasExited_iff.mpr ⟨fds', hchild⟩
        refine canStep_of_isSome (pid, .wait child) trivial ?_
        simp only [perform, waitStep, hprocess, hexited, if_true, Option.isSome_map,
          Option.isSome_some]
      · exact canStep_perform hprocess hright hwait

/-- When the first shell has exited, there is no other process. -/
theorem Layers.not_running {child : Nat} {below : List Nat} (hlayers : Layers s [child] below)
    (hexited : s.processes[child]? = some ⟨none, fds, .exited⟩) :
    ∀ process ∈ s.processes, ∀ code, process.life ≠ .running code := by
  have hbelow : below = [] := by
    have hlinked := hlayers.nested.linked
    cases below with
    | nil => rfl
    | cons next rest =>
        have hparent : parentOf s.processes child = some next := hlinked.1
        rw [parentOf, hexited] at hparent
        cases hparent
  intro process hmem code hlife
  obtain ⟨other, hother⟩ := List.mem_iff_getElem?.mp hmem
  have hstack := hlayers.nested.mem hother (by rw [Process.isReaped, hlife])
  rw [hbelow] at hstack
  cases List.mem_singleton.mp hstack
  cases hexited.symm.trans hother
  cases hlife

/-- The parent of a process that has exited can go on. -/
theorem Layers.canStep_parent {child : Nat} {below : List Nat} (hlayers : Layers s [child] below)
    (hexited : s.processes[child]? = some ⟨some pid, fds, .exited⟩) : CanStep contents s := by
  obtain ⟨before, behind, hstack⟩ := hlayers.nested.exists_of_parent hexited rfl rfl
  have hpid : pid ∈ [child] ++ below := by
    rw [hstack]
    exact List.mem_append_right _ (List.mem_cons_of_mem _ List.mem_cons_self)
  rcases List.mem_append.mp hpid with hself | hbelow
  · -- a process is not its own parent
    have hnodup := hlayers.nested.nodup
    rw [hstack, List.mem_singleton.mp hself] at hnodup
    simp [List.nodup_append] at hnodup
  · obtain ⟨_, g', _, hprocess, hright, hrole⟩ := hlayers.below pid hbelow
    exact canStep_waits hprocess hright hrole hexited

theorem Layers.canStep {upper below : List Nat} (hlayers : Layers s upper below)
    (hproper : ∀ line ∈ s.remaining.head?, Proper line) :
    (s.remaining = [] ∧ ∀ process ∈ s.processes, ∀ code, process.life ≠ .running code) ∨
      CanStep contents s := by
  cases hlayers.upper with
  | @alone pid _ _ p hprocess hright hrole =>
      refine .inr ?_
      cases p with
      | pure value => exact canStep_main hprocess hright.pure.base hproper
      | perform c next =>
          refine canStep_perform hprocess hright ?_
          rintro rfl
          exact hright.not_wait hrole
  | @forked child pid _ _ _ _ _ _ hprocess hright hrole _ hwork hchild hok =>
      refine .inr ?_
      cases hok with
      | @program g' p' hrole' hright' =>
          cases p' with
          | pure value => exact canStep_main hchild hright'.pure.base hproper
          | perform c next =>
              refine canStep_perform hchild (hwork ▸ hright') ?_
              rintro rfl
              obtain ⟨last, hwaits, -⟩ := hright'.wait
              cases hrole'.symm.trans hwaits
      | command =>
          refine canStep_of_isSome (child, .exit) trivial ?_
          simp only [perform, exitStep, hchild, Option.isSome_map, Option.isSome_some]
      | exited => exact canStep_waits hprocess hright hrole hchild
  | @ended child parent fds hexited hremaining =>
      cases parent with
      | none => exact .inl ⟨hremaining, hlayers.not_running hexited⟩
      | some pid => exact .inr (hlayers.canStep_parent hexited)

/-! ### Nothing goes on for ever -/

/-- What a process may have left after a step. -/
inductive Smaller : Code Unit → Code Unit → Prop where
  | reply {c : Call} {next : Reply c → Prog Reply Unit} (reply : Reply c) :
      Smaller (.program (next reply)) (.program (.perform c next))
  | command {c : Call} {next : Reply c → Prog Reply Unit} :
      Smaller (.other ()) (.program (.perform c next))

theorem smaller_wellFounded : WellFounded Smaller := by
  have hcommand : Acc Smaller (.other ()) := ⟨_, nofun⟩
  refine ⟨fun code => ?_⟩
  cases code with
  | other => exact hcommand
  | program p =>
      induction p with
      | pure value => exact ⟨_, nofun⟩
      | perform c next ih =>
          refine ⟨_, fun code hsmaller => ?_⟩
          cases hsmaller with
          | reply reply => exact ih reply
          | command => exact hcommand

/-- The number of the lines that have not been read, and what the processes have left. -/
def State.ahead (s : State) : Nat × Multiset (Code Unit) :=
  (s.remaining.length, running s.processes)

/-- There are fewer lines, or as many and less for the processes to do. -/
def Ahead : Nat × Multiset (Code Unit) → Nat × Multiset (Code Unit) → Prop :=
  Prod.Lex (· < ·) (CutExpand Smaller)

theorem ahead_wellFounded : WellFounded Ahead :=
  WellFounded.prod_lex Nat.lt_wfRel.wf smaller_wellFounded.cutExpand

theorem ahead_set {code : Code Unit} {process : Proc Unit} {work : Nat → Work}
    {started : List Nat} {pipes : Nat}
    (hprocess : s.processes[pid]? = some ⟨parent, fds, .running code⟩)
    (hsmaller : ∀ code' ∈ process.life.codes, Smaller code' code) :
    Ahead ({ s with
      processes := s.processes.set pid process, work := work, started := started
      pipes := pipes } : State).ahead s.ahead :=
  .right _ (cutExpand_running_set hprocess process hsmaller)

theorem forall_mem_reply (c : Call) (next : Reply c → Prog Reply Unit) (reply : Reply c) :
    ∀ code ∈ (inShell parent fds (next reply) : Proc Unit).life.codes,
      Smaller code (.program (.perform c next)) := by
  intro code hcode
  rw [Multiset.mem_singleton.mp hcode]
  exact .reply reply

theorem forall_mem_exited {code : Code Unit} :
    ∀ code' ∈ (⟨parent, fds, .exited⟩ : Proc Unit).life.codes, Smaller code' code :=
  fun code' hcode => absurd hcode (Multiset.notMem_zero code')

theorem ahead_wait {child : Nat} {ps : List (Proc Unit)}
    (hstep : waitStep child pid s.processes = some ps) :
    Ahead ({ s with processes := ps } : State).ahead s.ahead := by
  obtain ⟨parent, fds, next, fds', hprocess, hexited, rfl⟩ := waitStep_eq_some hstep
  have hne : child ≠ pid := by
    rintro rfl
    cases hprocess.symm.trans hexited
  have hshell := (List.getElem?_set_ne (a := ⟨some pid, fds', .reaped⟩) hne).trans hprocess
  have hreaped : running (s.processes.set child ⟨some pid, fds', .reaped⟩) = running s.processes :=
    by simpa [Life.codes] using running_set hexited ⟨some pid, fds', .reaped⟩
  have hcut := cutExpand_running_set hshell (inShell parent fds (next ()))
    (forall_mem_reply .wait next ())
  rw [hreaped] at hcut
  exact .right _ hcut

theorem ahead_main {upper below : List Nat} (hlayers : Layers s upper below) {choice : Option Line}
    (hstep : mainStep contents choice pid s = some s') : Ahead s'.ahead s.ahead := by
  unfold mainStep at hstep
  split at hstep
  · rename_i parent fds hprocess
    obtain ⟨hbase, -⟩ := hlayers.idle hprocess
    rw [hbase.stdin] at hstep
    cases hremaining : s.remaining with
    | nil =>
        simp only [State.getline, hremaining, List.head?_nil] at hstep
        cases hstep
        have hcut := cutExpand_running_set hprocess ⟨parent, fds, .exited⟩ forall_mem_exited
        rw [State.ahead, State.ahead, hremaining]
        exact .right _ hcut
    | cons line rest =>
        simp only [State.getline, hremaining, List.head?_cons, List.tail_cons] at hstep
        have hlength : s'.remaining = rest := by
          split_ifs at hstep <;> cases hstep <;> rfl
        rw [State.ahead, State.ahead, hremaining, hlength]
        exact .left _ _ (Nat.lt_succ_self _)
  · cases hstep

/-- Every step brings the processes closer to the end of the lines. -/
theorem Inv.ahead {label : Nat × Action} (hinv : Inv lines s)
    (hstep : Session.perform contents label s = some s') : Ahead s'.ahead s.ahead := by
  obtain ⟨pid, action⟩ := label
  obtain ⟨upper, below, hlayers⟩ := hinv.layers
  cases action with
  | main choice => exact ahead_main hlayers hstep
  | call ok =>
      obtain ⟨ps, hps, rfl⟩ := Option.map_eq_some_iff.mp hstep
      obtain ⟨parent, fds, c, next, result, hprocess, hresult, rfl⟩ := callStep_eq_some hps
      exact ahead_set hprocess (forall_mem_reply c next result.1)
  | pipe =>
      obtain ⟨ps, hps, rfl⟩ := Option.map_eq_some_iff.mp hstep
      obtain ⟨parent, fds, next, hprocess, rfl⟩ := pipeStep_eq_some hps
      exact ahead_set hprocess (forall_mem_reply .pipe next (some _))
  | fork =>
      obtain ⟨ps, hps, rfl⟩ := Option.map_eq_some_iff.mp hstep
      obtain ⟨parent, fds, next, hprocess, rfl⟩ := forkStep_eq_some hps
      exact .right _ (cutExpand_running_fork hprocess _ _ (forall_mem_reply .fork next .parent)
        (forall_mem_reply .fork next .child))
  | wait child =>
      obtain ⟨ps, hps, rfl⟩ := Option.map_eq_some_iff.mp hstep
      exact ahead_wait hps
  | childless =>
      obtain ⟨ps, hps, rfl⟩ := Option.map_eq_some_iff.mp hstep
      exact absurd hps hlayers.not_childless
  | found =>
      obtain ⟨ps, hps, rfl⟩ := Option.map_eq_some_iff.mp hstep
      obtain ⟨parent, fds, argv, next, hprocess, rfl⟩ := execvpStep_eq_some hps
      refine ahead_set hprocess fun code' hcode => ?_
      rw [Multiset.mem_singleton.mp hcode]
      exact .command
  | notFound =>
      obtain ⟨ps, hps, rfl⟩ := Option.map_eq_some_iff.mp hstep
      obtain ⟨parent, fds, argv, next, hprocess, rfl⟩ := notFoundStep_eq_some hps
      exact ahead_set hprocess (forall_mem_reply (.execvp argv) next ())
  | crash =>
      obtain ⟨ps, hps, rfl⟩ := Option.map_eq_some_iff.mp hstep
      exact absurd hps hlayers.not_crash
  | exit =>
      obtain ⟨ps, hps, rfl⟩ := Option.map_eq_some_iff.mp hstep
      obtain ⟨parent, fds, hprocess, rfl⟩ := exitStep_eq_some hps
      exact ahead_set hprocess forall_mem_exited

/-! ### Sessions -/

theorem Inv.canStep (hinv : Inv lines s) (hproper : ∀ line ∈ lines, Proper line) :
    Complete lines s ∨ CanStep contents s := by
  obtain ⟨⟨upper, below, hlayers⟩, hrecorded⟩ := hinv
  have hnext : ∀ line ∈ s.remaining.head?, Proper line := by
    intro line hline
    refine hproper line ?_
    rw [← hrecorded.lines]
    exact List.mem_append_right _ (List.mem_of_mem_head? hline)
  refine (hlayers.canStep hnext).imp_left fun hover => ⟨?_, hover.2⟩
  rw [← hrecorded.lines, hover.1, List.append_nil]

/-- In a session in which all failures are harmless, the lines do not disturb each other. If the
lines are proper ones, then a step is possible until all of them have been processed, which may be
the end of a command. No session goes on for ever. -/
theorem lines_isolated (contents : Text → List Line) (lines : List Line) {fds : Fds}
    (hbase : Base fds) (run : Run (session contents lines fds))
    (hharmless : ∀ i, i < run.length → Harmless (run.label i) (run.state i)) :
    (∀ i, i ≤ run.length → Isolated lines (run.state i)) ∧
      ((∀ line ∈ lines, Proper line) → ∀ i, i ≤ run.length →
        Complete lines (run.state i) ∨
          ∃ label next, Harmless label (run.state i) ∧
            perform contents label (run.state i) = some next) ∧
      ∀ (label : Nat → Nat × Action) (state : Nat → State), state 0 = run.state run.length →
        ¬∀ k, Harmless (label k) (state k) ∧
          perform contents (label k) (state k) = some (state (k + 1)) := by
  have hinv : ∀ i, i ≤ run.length → Inv lines (run.state i) := by
    refine run.induction (P := fun i => Inv lines (run.state i)) ?_ ?_
    · rw [run.starts]
      exact inv_start hbase
    · intro i hi hinv
      exact hinv.perform (hharmless i hi) (run.steps i hi)
  refine ⟨fun i hi => (hinv i hi).isolated, fun hproper i hi => (hinv i hi).canStep hproper, ?_⟩
  intro label state hstate
  have hstep : ∀ label state next, Harmless label state → Inv lines state →
      perform contents label state = some next → Inv lines next ∧ Ahead next.ahead state.ahead :=
    fun label state next hharmless hinv hstep =>
      ⟨hinv.perform hharmless hstep, hinv.ahead hstep⟩
  refine not_forever ahead_wellFounded State.ahead hstep label state ?_
  rw [hstate]
  exact hinv run.length le_rfl

theorem standardFds_base : Base standardFds := ⟨rfl, rfl⟩

/-- The lines `x` and `z`. -/
def firstLine : Line := ⟨[120, 10], by decide, by decide⟩

def lastLine : Line := ⟨[122, 10], by decide, by decide⟩

/-- The command of the first line is not found. Its child reads the last line, starts the command of
it and waits for it, and exits before the first shell does. -/
theorem lines_isolated_notFound :
    Base standardFds ∧ (∀ line ∈ [firstLine, lastLine], Proper line) ∧
      ∃ run : Run (session (fun _ => []) [firstLine, lastLine] standardFds),
        run.length = 27 ∧ (run.state 27).log.length = 2 ∧ (run.state 27).started = [1] ∧
        (∀ i, i ≤ run.length → Isolated [firstLine, lastLine] (run.state i)) ∧
        ∀ i, i ≤ run.length → Complete [firstLine, lastLine] (run.state i) ∨
          ∃ label next, Harmless label (run.state i) ∧
            perform (fun _ => []) label (run.state i) = some next := by
  let labels : List (Nat × Action) :=
    [(0, .main none), (0, .call true), (0, .call true), (0, .call true), (0, .fork), (1, .notFound),
      (1, .call true), (1, .call true), (1, .call true), (1, .call true), (1, .main none),
      (1, .call true), (1, .call true), (1, .call true), (1, .fork), (2, .found), (2, .exit),
      (1, .wait 2), (1, .call true), (1, .call true), (1, .call true), (1, .main none),
      (0, .wait 1), (0, .call true), (0, .call true), (0, .call true), (0, .main none)]
  let run : Run (session (fun _ => []) [firstLine, lastLine] standardFds) :=
    .ofExecute (start [firstLine, lastLine] standardFds) rfl labels (0, .exit) (by decide)
  have hproper : ∀ line ∈ [firstLine, lastLine], Proper line := by decide
  obtain ⟨hisolated, hprogress, -⟩ :=
    lines_isolated _ _ standardFds_base run (by decide +kernel)
  exact ⟨standardFds_base, hproper, run, rfl, by decide, by decide, hisolated, hprogress hproper⟩

/-- The line `x <f`, and a line of the file `f`. -/
def redirectedLine : Line := ⟨[120, 32, 60, 102, 10], by decide, by decide⟩

def fileLine : Line := ⟨[121, 10], by decide, by decide⟩

/-- The command is not found, and its child goes back to `main` with the file as its standard
input, and runs what it reads there. -/
theorem isolated_fails_redirected :
    ∃ run : Run (session (fun _ => [fileLine]) [redirectedLine, lastLine] standardFds),
      run.length = 16 ∧
      (run.state 16).log = [⟨redirectedLine, some (.inherited 0), some (.inherited 1)⟩,
        ⟨fileLine, some (.infile [102]), some (.inherited 1)⟩] ∧
      ¬ Isolated [redirectedLine, lastLine] (run.state 16) := by
  let labels : List (Nat × Action) :=
    [(0, .main none), (0, .call true), (0, .call true), (0, .call true), (0, .call true),
      (0, .fork), (1, .call true), (1, .call true), (1, .call true), (1, .call true),
      (1, .notFound), (1, .call true), (1, .call true), (1, .call true), (1, .call true),
      (1, .main (some fileLine))]
  let run : Run (session (fun _ => [fileLine]) [redirectedLine, lastLine] standardFds) :=
    .ofExecute (start [redirectedLine, lastLine] standardFds) rfl labels (0, .exit) (by decide)
  have hlog : (run.state 16).log = [⟨redirectedLine, some (.inherited 0), some (.inherited 1)⟩,
      ⟨fileLine, some (.infile [102]), some (.inherited 1)⟩] := by decide
  refine ⟨run, rfl, hlog, fun hisolated => ?_⟩
  have hstdin := hisolated.stdin ⟨fileLine, some (.infile [102]), some (.inherited 1)⟩
  rw [hlog] at hstdin
  exact nomatch hstdin (List.mem_cons_of_mem _ List.mem_cons_self)

end Acos.Shell.Pipe.Session
