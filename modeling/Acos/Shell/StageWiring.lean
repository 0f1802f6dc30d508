import Acos.Shell.PipelineSystem

/-!
# What a stage finds at its command

The shell runs `Exec` on a pipeline and its calls succeed, but nothing is assumed about the
commands: once it has been started, a command may do anything with its own descriptors, and end
whenever it likes. The stage `i` is the process `i + 1`, and the pipe `i` leads from it to the next
one.
-/

namespace Acos.Shell.Pipe.Wired

open Program Descriptors Processes Transition

/-- The processes and the number of the pipes. -/
structure State where
  processes : List (Proc Unit)
  pipes : Nat

/-- A command goes on with these descriptors, or ends. -/
def commandStep (fds : Fds) (life : Life (Code Unit)) (pid : Nat) (ps : List (Proc Unit)) :
    Option (List (Proc Unit)) :=
  match ps[pid]? with
  | some ⟨parent, _, .running (.other ())⟩ => some (ps.set pid ⟨parent, fds, life⟩)
  | _ => none

inductive Action where
  | call
  | pipe
  | fork
  | wait (child : Nat)
  | childless
  | found
  | crash
  | command (fds : Fds)
  | exit

def perform : Nat × Action → State → Option State
  | (pid, .call), s => (callStep true pid s.processes).map fun ps => { s with processes := ps }
  | (pid, .pipe), s =>
      (pipeStep s.pipes pid s.processes).map fun ps => { processes := ps, pipes := s.pipes + 1 }
  | (pid, .fork), s => (forkStep pid s.processes).map fun ps => { s with processes := ps }
  | (pid, .wait child), s =>
      (waitStep child pid s.processes).map fun ps => { s with processes := ps }
  | (pid, .childless), s =>
      (childlessStep pid s.processes).map fun ps => { s with processes := ps }
  | (pid, .found), s => (execvpStep () pid s.processes).map fun ps => { s with processes := ps }
  | (pid, .crash), s => (crashStep pid s.processes).map fun ps => { s with processes := ps }
  | (pid, .command fds), s =>
      (commandStep fds (.running (.other ())) pid s.processes).map fun ps =>
        { s with processes := ps }
  | (pid, .exit), s =>
      (commandStep ⟨[]⟩ .exited pid s.processes).map fun ps => { s with processes := ps }

/-- The shell with these descriptors calls `Exec`. -/
def system (tokenizer : Tokenizer) (fds : Fds) : System State (Nat × Action) :=
  .ofFunction (· = ⟨[inShell none fds (exec tokenizer)], 0⟩) perform

/-! ### The invariant -/

/-- The setting of a line. Nothing here depends on what the commands write. -/
def settingOf (tokens : List Token) : Setting where
  infile := fileName .infile tokens
  outfile := fileName .outfile tokens
  blocks := count .pipe tokens
  total := stageCount tokens
  capacity := 0
  writes _ := 0

/-- The shell on its way through the pipeline, with the processes it has not waited for. -/
structure ShellOk (v : Setting) (s : State) (stack : List Nat) (g : Ghost) (p : Prog Reply Unit) :
    Prop where
  nested : Nested s.processes stack
  shell : s.processes[0]? = some (inShell none g.fds p)
  right : v.Right p g
  length : s.processes.length = g.forks + 1
  pipes : s.pipes = g.pipes

/-- The stage `i` is on its way to its command, or behind it. -/
structure StageOk (v : Setting) (i : Nat) (child : Proc Unit) : Prop where
  parent : child.parent = some 0
  life : child.isReaped = false
  right : ∀ p, child.life = .running (.program p) →
    ∃ g : Ghost, g.fds = child.own ∧ g.role = .stage i ∧ v.Right p g

inductive Inv (v : Setting) (s : State) : Prop where
  | alone {g : Ghost} {p : Prog Reply Unit} (hshell : ShellOk v s [0] g p) (hrole : g.role = .shell)
  | waits {g : Ghost} {p : Prog Reply Unit} {i : Nat} {child : Proc Unit}
      (hshell : ShellOk v s [i + 1, 0] g p) (hrole : g.role = .parent i) (hforks : g.forks = i + 1)
      (hchild : s.processes[i + 1]? = some child) (hstage : StageOk v i child)

section Steps

variable {v : Setting} {s : State} {stack : List Nat} {g g' : Ghost} {p p' : Prog Reply Unit}
  {i pid child : Nat} {process : Proc Unit} {ps : List (Proc Unit)}

/-- The shell goes on. -/
theorem ShellOk.goOn (hshell : ShellOk v s stack g p) (hright : v.Right p' g')
    (hforks : g'.forks = g.forks) {pipes : Nat} (hpipes : pipes = g'.pipes) :
    ShellOk v ⟨s.processes.set 0 (inShell none g'.fds p'), pipes⟩ stack g' p' where
  nested := hshell.nested.set hshell.shell rfl rfl rfl
  shell := getElem?_set_of_some hshell.shell _
  right := hright
  length := by
    rw [List.length_set, hshell.length, hforks]
  pipes := hpipes

/-- The stage goes on. -/
theorem Inv.stageGoOn (hshell : ShellOk v s [i + 1, 0] g p) (hrole : g.role = .parent i)
    (hforks : g.forks = i + 1) (hchild : s.processes[i + 1]? = some process)
    (hstage : StageOk v i process) {process' : Proc Unit} (hstage' : StageOk v i process') :
    Inv v { s with processes := s.processes.set (i + 1) process' } := by
  refine .waits (g := g) (p := p) ⟨?_, ?_, hshell.right, ?_, hshell.pipes⟩ hrole hforks
    (getElem?_set_of_some hchild _) hstage'
  · exact hshell.nested.set hchild hstage.life (hstage'.parent.trans hstage.parent.symm)
      hstage'.life
  · exact (List.getElem?_set_ne (Nat.succ_ne_zero i)).trans hshell.shell
  · exact List.length_set.trans hshell.length

/-- Who runs the program. -/
inductive Actor (v : Setting) (s : State) (p : Prog Reply Unit) :
    Nat → Option Nat → Fds → Prop where
  | alone {g : Ghost} (hshell : ShellOk v s [0] g p) (hrole : g.role = .shell) :
      Actor v s p 0 none g.fds
  | shell {g : Ghost} {i : Nat} {child : Proc Unit} (hshell : ShellOk v s [i + 1, 0] g p)
      (hrole : g.role = .parent i) (hforks : g.forks = i + 1)
      (hchild : s.processes[i + 1]? = some child) (hstage : StageOk v i child) :
      Actor v s p 0 none g.fds
  | stage {g g' : Ghost} {p' : Prog Reply Unit} {i : Nat} (hshell : ShellOk v s [i + 1, 0] g' p')
      (hrole' : g'.role = .parent i) (hforks : g'.forks = i + 1)
      (hchild : s.processes[i + 1]? = some (inShell (some 0) g.fds p)) (hrole : g.role = .stage i)
      (hright : v.Right p g) : Actor v s p (i + 1) (some 0) g.fds

theorem StageOk.program (hrole : g.role = .stage i) (hright : v.Right p g) :
    StageOk v i (inShell (some 0) g.fds p) where
  parent := rfl
  life := rfl
  right p' hp' := by
    cases hp'
    exact ⟨g, rfl, hrole, hright⟩

theorem Inv.actor (hinv : Inv v s) {parent : Option Nat} {fds : Fds}
    (hprocess : s.processes[pid]? = some (inShell parent fds p)) : Actor v s p pid parent fds := by
  cases hinv with
  | alone hshell hrole =>
      obtain rfl := List.mem_singleton.mp (hshell.nested.mem hprocess rfl)
      cases hshell.shell.symm.trans hprocess
      exact .alone hshell hrole
  | waits hshell hrole hforks hchild hstage =>
      have hmem := hshell.nested.mem hprocess rfl
      rcases List.mem_pair.mp hmem with rfl | rfl
      · cases hchild.symm.trans hprocess
        obtain ⟨g, rfl, hstageRole, hright⟩ := hstage.right p rfl
        obtain rfl : parent = some 0 := hstage.parent
        exact .stage hshell hrole hforks hchild hstageRole hright
      · cases hshell.shell.symm.trans hprocess
        exact .shell hshell hrole hforks hchild hstage

theorem Inv.call (hinv : Inv v s) (hstep : callStep true pid s.processes = some ps) :
    Inv v { s with processes := ps } := by
  obtain ⟨parent, fds, c, next, result, hprocess, hresult, rfl⟩ := callStep_eq_some hstep
  cases hinv.actor hprocess with
  | @alone g hshell hrole =>
      exact .alone (g := { g with fds := result.2 })
        (hshell.goOn (hshell.right.call hresult) rfl hshell.pipes) hrole
  | @shell g i _ hshell hrole hforks hchild hstage =>
      refine .waits (g := { g with fds := result.2 })
        (hshell.goOn (hshell.right.call hresult) rfl hshell.pipes) hrole hforks ?_ hstage
      exact (List.getElem?_set_ne (Nat.succ_ne_zero i).symm).trans hchild
  | @stage g _ _ i hshell hrole' hforks hchild hrole hright =>
      refine Inv.stageGoOn hshell hrole' hforks hchild (.program hrole hright) ?_
      exact .program (g := { g with fds := result.2 }) hrole (hright.call hresult)

theorem Inv.pipe (hinv : Inv v s) (hstep : pipeStep s.pipes pid s.processes = some ps) :
    Inv v ⟨ps, s.pipes + 1⟩ := by
  obtain ⟨parent, fds, next, hprocess, rfl⟩ := pipeStep_eq_some hstep
  cases hinv.actor hprocess with
  | @alone g hshell hrole =>
      obtain ⟨-, hright⟩ := hshell.right.pipe
      rw [hshell.pipes]
      exact .alone (hshell.goOn hright rfl rfl) hrole
  | shell hshell hrole => exact nomatch hrole.symm.trans hshell.right.pipe.1
  | stage _ _ _ _ hrole hright => exact nomatch hrole.symm.trans hright.pipe.1

theorem Inv.fork (hinv : Inv v s) (hstep : forkStep pid s.processes = some ps) :
    Inv v { s with processes := ps } := by
  obtain ⟨parent, fds, next, hprocess, rfl⟩ := forkStep_eq_some hstep
  cases hinv.actor hprocess with
  | @alone g hshell hrole =>
      obtain ⟨-, -, hparent, hright⟩ := hshell.right.fork
      have hnested : Nested (s.processes.set 0 (inShell none g.fds (next .parent)) ++
          [inShell (some 0) g.fds (next .child)]) [s.processes.length, 0] :=
        hshell.nested.set_fork hprocess rfl rfl rfl rfl rfl
      have hstage := getElem?_set_append_length s.processes 0
        (inShell none g.fds (next .parent)) (inShell (some 0) g.fds (next .child))
      rw [hshell.length] at hnested hstage
      refine .waits (i := g.forks) (p := next .parent) ⟨hnested, ?_, hparent, ?_, hshell.pipes⟩
        rfl rfl hstage (.program (g := { g with role := .stage g.forks }) rfl hright)
      · exact getElem?_set_append_self hprocess _ _
      · rw [List.length_append, List.length_set, hshell.length]
        rfl
  | shell hshell hrole => exact nomatch hrole.symm.trans hshell.right.fork.1
  | stage _ _ _ _ hrole hright => exact nomatch hrole.symm.trans hright.fork.1

/-- The shell waits only while it has a stage. -/
theorem Inv.waiting (hinv : Inv v s) {parent : Option Nat} {fds : Fds}
    {next : Unit → Prog Reply Unit}
    (hprocess : s.processes[pid]? = some (inShell parent fds (.perform .wait next))) :
    ∃ g i child, pid = 0 ∧ parent = none ∧ fds = g.fds ∧
      ShellOk v s [i + 1, 0] g (.perform .wait next) ∧ g.forks = i + 1 ∧
      s.processes[i + 1]? = some child ∧ StageOk v i child := by
  cases hinv.actor hprocess with
  | alone hshell hrole =>
      obtain ⟨-, ⟨i, hparent⟩, -⟩ := hshell.right.wait
      exact nomatch hrole.symm.trans hparent
  | stage _ _ _ _ hrole hright =>
      obtain ⟨-, ⟨j, hparent⟩, -⟩ := hright.wait
      exact nomatch hrole.symm.trans hparent
  | shell hshell hrole hforks hchild hstage =>
      exact ⟨_, _, _, rfl, rfl, rfl, hshell, hforks, hchild, hstage⟩

theorem Inv.wait (hinv : Inv v s) (hstep : waitStep child pid s.processes = some ps) :
    Inv v { s with processes := ps } := by
  obtain ⟨parent, fds, next, fds', hprocess, hexited, rfl⟩ := waitStep_eq_some hstep
  obtain ⟨g, i, _, rfl, rfl, rfl, hshell, hforks, hchild, hstage⟩ := hinv.waiting hprocess
  have hright := hshell.right.wait.2.2
  rcases List.mem_pair.mp (hshell.nested.mem hexited rfl) with rfl | rfl
  · have hset : (s.processes.set (i + 1) ⟨some 0, fds', .reaped⟩)[0]? =
        some (inShell none g.fds (.perform .wait next)) :=
      (List.getElem?_set_ne (Nat.succ_ne_zero i)).trans hprocess
    refine .alone (g := { g with role := .shell })
      ⟨(hshell.nested.reap rfl).set hset rfl rfl rfl, getElem?_set_of_some hset _, hright, ?_,
        hshell.pipes⟩ rfl
    rw [List.length_set, List.length_set, hshell.length]
  · exact nomatch hprocess.symm.trans hexited

theorem Inv.not_childless (hinv : Inv v s) : childlessStep pid s.processes ≠ some ps := by
  intro hstep
  obtain ⟨parent, fds, next, hprocess, hreaped, -⟩ := childlessStep_eq_some hstep
  obtain ⟨g, i, child, rfl, rfl, rfl, -, -, hchild, hstage⟩ := hinv.waiting hprocess
  have hlife := hreaped _ (List.mem_of_getElem? hchild) hstage.parent
  rw [hstage.life] at hlife
  exact nomatch hlife

theorem Inv.not_crash (hinv : Inv v s) : crashStep pid s.processes ≠ some ps := by
  intro hstep
  obtain ⟨parent, fds, next, hprocess, -⟩ := crashStep_eq_some hstep
  cases hinv.actor hprocess with
  | alone hshell => exact hshell.right.elim
  | shell hshell => exact hshell.right.elim
  | stage _ _ _ _ _ hright => exact hright.elim

/-- Only a stage gets to a command, with its descriptors as they should be. -/
theorem Inv.execvp (hinv : Inv v s) {parent : Option Nat} {fds : Fds} {argv : List Text}
    {next : Unit → Prog Reply Unit}
    (hprocess : s.processes[pid]? = some (inShell parent fds (.perform (.execvp argv) next))) :
    ∃ i g' p', pid = i + 1 ∧ parent = some 0 ∧ ShellOk v s [i + 1, 0] g' p' ∧ g'.role = .parent i ∧
      g'.forks = i + 1 ∧ Standard (source v.infile i) (target v.outfile v.blocks i) i fds ∧
      StageOk v i (inShell parent fds (.perform (.execvp argv) next)) := by
  cases hinv.actor hprocess with
  | alone hshell hrole =>
      obtain ⟨i, hstage, -⟩ := hshell.right.execvp
      exact nomatch hrole.symm.trans hstage
  | shell hshell hrole =>
      obtain ⟨j, hstage, -⟩ := hshell.right.execvp
      exact nomatch hrole.symm.trans hstage
  | stage hshell hrole' hforks hchild hrole hright =>
      obtain ⟨j, hstage, hstandard⟩ := hright.execvp
      cases hrole.symm.trans hstage
      exact ⟨_, _, _, rfl, rfl, hshell, hrole', hforks, hstandard, .program hrole hright⟩

/-- A stage that is behind its command. -/
theorem StageOk.behind {fds : Fds} {life : Life (Code Unit)}
    (hlife : (⟨some 0, fds, life⟩ : Proc Unit).isReaped = false)
    (hcode : ∀ p, life ≠ .running (.program p)) : StageOk v i ⟨some 0, fds, life⟩ where
  parent := rfl
  life := hlife
  right p hp := absurd hp (hcode p)

theorem Inv.found (hinv : Inv v s) (hstep : execvpStep () pid s.processes = some ps) :
    Inv v { s with processes := ps } := by
  obtain ⟨parent, fds, argv, next, hprocess, rfl⟩ := execvpStep_eq_some hstep
  obtain ⟨i, g', p', rfl, rfl, hshell, hrole, hforks, -, hstage⟩ := hinv.execvp hprocess
  exact Inv.stageGoOn hshell hrole hforks hprocess hstage (.behind rfl nofun)

theorem Inv.command (hinv : Inv v s) {fds : Fds} {life : Life (Code Unit)}
    (hstep : commandStep fds life pid s.processes = some ps)
    (hlife : ∀ parent, (⟨parent, fds, life⟩ : Proc Unit).isReaped = false)
    (hcode : ∀ p, life ≠ .running (.program p)) :
    Inv v { s with processes := ps } := by
  unfold commandStep at hstep
  split at hstep
  · rename_i parent fds' hprocess
    cases hstep
    cases hinv with
    | alone hshell =>
        obtain rfl := List.mem_singleton.mp (hshell.nested.mem hprocess rfl)
        cases hshell.shell.symm.trans hprocess
    | waits hshell hrole hforks hchild hstage =>
        rcases List.mem_pair.mp (hshell.nested.mem hprocess rfl) with rfl | rfl
        · cases hchild.symm.trans hprocess
          obtain rfl : parent = some 0 := hstage.parent
          exact Inv.stageGoOn hshell hrole hforks hprocess hstage (.behind (hlife _) hcode)
        · cases hshell.shell.symm.trans hprocess
  · exact nomatch hstep

theorem Inv.perform {s' : State} {label : Nat × Action} (hinv : Inv v s)
    (hstep : perform label s = some s') : Inv v s' := by
  obtain ⟨pid, action⟩ := label
  cases action with
  | call =>
      obtain ⟨ps, hps, rfl⟩ := Option.map_eq_some_iff.mp hstep
      exact hinv.call hps
  | pipe =>
      obtain ⟨ps, hps, rfl⟩ := Option.map_eq_some_iff.mp hstep
      exact hinv.pipe hps
  | fork =>
      obtain ⟨ps, hps, rfl⟩ := Option.map_eq_some_iff.mp hstep
      exact hinv.fork hps
  | wait child =>
      obtain ⟨ps, hps, rfl⟩ := Option.map_eq_some_iff.mp hstep
      exact hinv.wait hps
  | childless =>
      obtain ⟨ps, hps, rfl⟩ := Option.map_eq_some_iff.mp hstep
      exact absurd hps hinv.not_childless
  | found =>
      obtain ⟨ps, hps, rfl⟩ := Option.map_eq_some_iff.mp hstep
      exact hinv.found hps
  | crash =>
      obtain ⟨ps, hps, rfl⟩ := Option.map_eq_some_iff.mp hstep
      exact absurd hps hinv.not_crash
  | command fds =>
      obtain ⟨ps, hps, rfl⟩ := Option.map_eq_some_iff.mp hstep
      exact hinv.command hps (fun _ => rfl) nofun
  | exit =>
      obtain ⟨ps, hps, rfl⟩ := Option.map_eq_some_iff.mp hstep
      exact hinv.command hps (fun _ => rfl) nofun

end Steps

theorem inv_of_reachable {tokenizer : Tokenizer} (hwell : WellFormed tokenizer.tokens)
    (hpipes : 0 < count .pipe tokenizer.tokens) {fds : Fds} (hfds : Inherits fds) {s : State}
    (hreach : Reachable (system tokenizer fds) s) : Inv (settingOf tokenizer.tokens) s := by
  refine hreach.invariant ?_ fun label s s' hinv hstep => hinv.perform hstep
  rintro s rfl
  have hright := exec_ensures tokenizer hwell hpipes hfds fun _ => rfl
  exact .alone ⟨.single rfl rfl, rfl, hright, rfl, rfl⟩ rfl

/-- **The wiring of a pipeline.** When the stage `i` gets to its command, its standard input is the
input file, the standard input of the shell or the read end of the pipe before it, its standard
output is the output file, the standard output of the shell or the write end of the pipe behind it,
and no process that is running, the stage itself and the shell among them, has a descriptor for the
write end of the pipe before it. -/
theorem stage_wired {tokenizer : Tokenizer} (hwell : WellFormed tokenizer.tokens)
    (hpipes : 0 < count .pipe tokenizer.tokens) {fds : Fds} (hfds : Inherits fds) {s : State}
    (hreach : Reachable (system tokenizer fds) s) {i : Nat} {parent : Option Nat} {own : Fds}
    {argv : List Text} {next : Unit → Prog Reply Unit}
    (hstage : s.processes[i + 1]? = some (inShell parent own (.perform (.execvp argv) next))) :
    own.get stdinFileno = some (source (fileName .infile tokenizer.tokens) i)
      ∧ own.get stdoutFileno
        = some (target (fileName .outfile tokenizer.tokens) (count .pipe tokenizer.tokens) i)
      ∧ ∀ (pid : Nat) (parent : Option Nat) (fds : Fds) (code : Code Unit),
        s.processes[pid]? = some ⟨parent, fds, .running code⟩ → NoWriter i fds := by
  have hinv := inv_of_reachable hwell hpipes hfds hreach
  obtain ⟨j, g', p', hj, -, hshell, hrole, -, hstandard, -⟩ := hinv.execvp hstage
  obtain rfl : j = i := by omega
  refine ⟨hstandard.stdin, hstandard.stdout, fun pid parent' fds' code hprocess => ?_⟩
  rcases List.mem_pair.mp (hshell.nested.mem hprocess rfl) with rfl | rfl
  · cases hstage.symm.trans hprocess
    exact hstandard.noWriter
  · cases hshell.shell.symm.trans hprocess
    exact (hshell.right.ok hrole).1

/-- The stage `i` is at its command. -/
def State.atCommand (i : Nat) (s : State) : Bool :=
  match s.processes[i + 1]? with
  | some ⟨_, _, .running (.program (.perform (.execvp _) _))⟩ => true
  | _ => false

/-- The second stage of `a | b` at its command. -/
theorem stage_wired_second :
    ∃ s parent own argv next, Reachable (system wordPipeline standardFds) s
      ∧ s.processes[2]? = some (inShell parent own (.perform (.execvp argv) next))
      ∧ own.get stdinFileno = some (.readEnd 0) ∧ own.get stdoutFileno = some (.inherited 1) := by
  let start : State := ⟨[inShell none standardFds (exec wordPipeline)], 0⟩
  let labels : List (Nat × Action) :=
    [(0, .call), (0, .call), (0, .call), (0, .call), (0, .pipe), (0, .call), (0, .call), (0, .call),
      (0, .call), (0, .call), (0, .fork), (1, .call), (1, .call), (1, .call), (1, .found),
      (1, .exit), (0, .call), (0, .wait 1), (0, .pipe), (0, .call), (0, .call), (0, .call),
      (0, .call), (0, .fork), (2, .call), (2, .call)]
  have hview : (execute perform labels start).any (State.atCommand 1) = true := by
    decide
  obtain ⟨s, hlast, hcommand⟩ := (Option.any_eq_true _ _).mp hview
  have hstart : Reachable (system wordPipeline standardFds) start := .init rfl
  have hreach := hstart.execute hlast
  unfold State.atCommand at hcommand
  split at hcommand
  · rename_i hstage
    obtain ⟨hstdin, hstdout, -⟩ :=
      stage_wired wordPipeline_wellFormed (by decide) standardFds_inherits hreach hstage
    exact ⟨s, _, _, _, _, hreach, hstage, hstdin, hstdout⟩
  · exact nomatch hcommand

end Acos.Shell.Pipe.Wired
