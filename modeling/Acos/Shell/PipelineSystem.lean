import Acos.Lib.Transition
import Acos.Shell.Wiring

/-!
# A pipeline at work

The shell runs `Exec` on a pipeline, and the commands it starts write to their standard output, read
their standard input to its end and exit. Pipes are of finite capacity. A process inside a call is
in a state of its own, so that it can be blocked there.
-/

namespace Acos.Shell.Pipe

open Program Descriptors Processes Transition

/-- A command with the number of the bytes it has still to write: between two calls, where it knows
whether it has seen the end of its input, in the call that writes one byte more, or in the call that
reads one. -/
inductive Command where
  | ready (left : Nat) (eof : Bool)
  | write (left : Nat) (eof : Bool)
  | read (left : Nat)

inductive CommandAction where
  | startWrite
  | startRead
  | write
  | read
  | exit
  deriving DecidableEq

/-- The bytes in each of the pipes, and those left in what the first command reads if it does not
read from a pipe. -/
structure State where
  processes : List (Proc Command)
  pipes : List Nat
  input : Nat

/-- Some process that has not exited has the object open. -/
def State.isOpen (s : State) (object : Object) : Bool :=
  s.processes.any fun process =>
    match process.life with
    | .running _ => process.own.holds object
    | _ => false

def State.goOn (s : State) (pid : Nat) (process : Proc Command) : State :=
  { s with processes := s.processes.set pid process }

/-- A write of one byte. It is the end of the process if nobody can read it. -/
def State.write (capacity : Nat) (s : State) (pid : Nat) (parent : Option Nat) (fds : Fds)
    (left : Nat) (eof : Bool) : Option State :=
  match fds.get stdoutFileno with
  | some (.writeEnd pipe) =>
      if !s.isOpen (.readEnd pipe) then
        some (s.goOn pid ⟨parent, fds, .exited⟩)
      else if s.pipes[pipe]?.getD 0 < capacity then
        some { s.goOn pid ⟨parent, fds, .running (.other (.ready left eof))⟩ with
          pipes := s.pipes.modify pipe (· + 1) }
      else none
  | _ => some (s.goOn pid ⟨parent, fds, .running (.other (.ready left eof))⟩)

/-- A read of one byte, or of the end of the input. -/
def State.read (s : State) (pid : Nat) (parent : Option Nat) (fds : Fds) (left : Nat) :
    Option State :=
  match fds.get stdinFileno with
  | some (.readEnd pipe) =>
      if 0 < s.pipes[pipe]?.getD 0 then
        some { s.goOn pid ⟨parent, fds, .running (.other (.ready left false))⟩ with
          pipes := s.pipes.modify pipe (· - 1) }
      else if s.isOpen (.writeEnd pipe) then none
      else some (s.goOn pid ⟨parent, fds, .running (.other (.ready left true))⟩)
  | _ =>
      if 0 < s.input then
        some { s.goOn pid ⟨parent, fds, .running (.other (.ready left false))⟩ with
          input := s.input - 1 }
      else some (s.goOn pid ⟨parent, fds, .running (.other (.ready left true))⟩)

def commandStep (capacity : Nat) (action : CommandAction) (pid : Nat) (s : State) :
    Option State :=
  match s.processes[pid]? with
  | some ⟨parent, fds, .running (.other command)⟩ =>
      match action, command with
      | .startWrite, .ready (left + 1) eof =>
          some (s.goOn pid ⟨parent, fds, .running (.other (.write left eof))⟩)
      | .startRead, .ready left false =>
          some (s.goOn pid ⟨parent, fds, .running (.other (.read left))⟩)
      | .write, .write left eof => s.write capacity pid parent fds left eof
      | .read, .read left => s.read pid parent fds left
      | .exit, .ready 0 true => some (s.goOn pid ⟨parent, fds, .exited⟩)
      | _, _ => none
  | _ => none

inductive Action where
  | call
  | pipe
  | fork
  | wait (child : Nat)
  | childless
  | execvp
  | crash
  | command (action : CommandAction)
  deriving DecidableEq

/-- A step of a process. The stage `i` is the process `i + 1`, and writes `writes i` bytes. -/
def perform (capacity : Nat) (writes : Nat → Nat) : Nat × Action → State → Option State
  | (pid, .call), s => (callStep true pid s.processes).map fun ps => { s with processes := ps }
  | (pid, .pipe), s =>
      (pipeStep s.pipes.length pid s.processes).map fun ps =>
        { s with processes := ps, pipes := s.pipes ++ [0] }
  | (pid, .fork), s => (forkStep pid s.processes).map fun ps => { s with processes := ps }
  | (pid, .wait child), s =>
      (waitStep child pid s.processes).map fun ps => { s with processes := ps }
  | (pid, .childless), s =>
      (childlessStep pid s.processes).map fun ps => { s with processes := ps }
  | (pid, .execvp), s =>
      (execvpStep (.ready (writes (pid - 1)) false) pid s.processes).map fun ps =>
        { s with processes := ps }
  | (pid, .crash), s => (crashStep pid s.processes).map fun ps => { s with processes := ps }
  | (pid, .command action), s => commandStep capacity action pid s

/-- The shell with these descriptors calls `Exec`. -/
def Initial (tokenizer : Tokenizer) (fds : Fds) (s : State) : Prop :=
  s.processes = [inShell none fds (exec tokenizer)] ∧ s.pipes = []

def pipeline (tokenizer : Tokenizer) (fds : Fds) (capacity : Nat) (writes : Nat → Nat) :
    System State (Nat × Action) :=
  .ofFunction (Initial tokenizer fds) (perform capacity writes)

/-! ### The invariant -/

def Command.left : Command → Nat
  | .ready left _ => left
  | .write left _ => left + 1
  | .read left => left

/-- A pipeline with its files, in which the shell starts `total` stages and the first `blocks` write
to a pipe of this capacity. -/
structure Setting where
  infile : Option Text
  outfile : Option Text
  blocks : Nat
  total : Nat
  capacity : Nat
  writes : Nat → Nat

namespace Setting

variable (v : Setting)

/-- The program is one of the shell on its way through the pipeline, or of one of its children. -/
def Right (p : Prog Reply Unit) (g : Ghost) : Prop :=
  p.Ensures (wiring v.infile v.outfile v.blocks) (fun _ g => g.role = .shell ∧ g.forks = v.total) g

/-- The stage fits into its pipe. -/
def Fits (i : Nat) : Prop := i < v.blocks → v.writes i ≤ v.capacity

/-- The stage `i` on its way to its command, in its command, and behind it. All that it has written
is still in its pipe. -/
inductive StageOk (i : Nat) (pipes : List Nat) : Fds → Life (Code Command) → Prop where
  | program {g : Ghost} {p : Prog Reply Unit} (hrole : g.role = .stage i) (hright : v.Right p g)
      (hempty : pipes[i]? = some 0) : StageOk i pipes g.fds (.running (.program p))
  | command {fds : Fds} {command : Command}
      (hstandard : Standard (source v.infile i) (target v.outfile v.blocks i) i fds)
      (hpipe : i < v.blocks →
        ∃ n, pipes[i]? = some n ∧ n ≤ v.capacity ∧ n + command.left = v.writes i) :
      StageOk i pipes fds (.running (.other command))
  | exited {fds : Fds} (hfits : v.Fits i) : StageOk i pipes fds .exited

/-- The shell without a child. The stages it has waited for have fitted into their pipes, and a pipe
for the next one is empty. -/
structure Alone (s : State) (g : Ghost) (p : Prog Reply Unit) : Prop where
  nested : Nested s.processes [0]
  shell : s.processes[0]? = some (inShell none g.fds p)
  right : v.Right p g
  role : g.role = .shell
  length : s.processes.length = g.forks + 1
  pipes : s.pipes.length = g.pipes
  empty : ∀ j, g.forks ≤ j → j < g.pipes → s.pipes[j]? = some 0
  fits : ∀ j, j < g.forks → v.Fits j

/-- The shell with the stage `i`, for which it has not waited. -/
structure Waiting (s : State) (i : Nat) (g : Ghost) (p : Prog Reply Unit) : Prop where
  nested : Nested s.processes [i + 1, 0]
  shell : s.processes[0]? = some (inShell none g.fds p)
  right : v.Right p g
  role : g.role = .parent i
  forks : g.forks = i + 1
  length : s.processes.length = i + 2
  pipes : s.pipes.length = i + 1
  made : g.pipes = i + 1
  fits : ∀ j, j < i → v.Fits j

inductive Inv (s : State) : Prop where
  | alone {g : Ghost} {p : Prog Reply Unit} (halone : v.Alone s g p)
  | waits {g : Ghost} {p : Prog Reply Unit} {i : Nat} {fds : Fds} {life : Life (Code Command)}
      (hwaiting : v.Waiting s i g p) (hchild : s.processes[i + 1]? = some ⟨some 0, fds, life⟩)
      (hstage : v.StageOk i s.pipes fds life)

end Setting

/-! ### What a program may do -/

section Right

variable {v : Setting} {g : Ghost} {i : Nat}

theorem Setting.Right.call {c : Call} {next : Reply c → Prog Reply Unit}
    (hright : v.Right (.perform c next) g) {result : Reply c × Fds}
    (hresult : effect true c g.fds = some result) :
    v.Right (next result.1) { g with fds := result.2 } := by
  cases c with
  | pipe | fork | wait | execvp | nullDereference => exact nomatch hresult
  | _ =>
      obtain ⟨-, result', hresult', hnext⟩ := hright
      cases hresult.symm.trans hresult'
      exact hnext

theorem Setting.Right.pipe {next : Option (Int × Int) → Prog Reply Unit}
    (hright : v.Right (.perform .pipe next) g) :
    g.role = .shell ∧ v.Right (next (some (openPipe g.pipes g.fds).1))
      { g with fds := (openPipe g.pipes g.fds).2, pipes := g.pipes + 1 } := hright

theorem Setting.Right.fork {next : Fork → Prog Reply Unit}
    (hright : v.Right (.perform .fork next) g) :
    g.role = .shell ∧ g.pipes = g.forks + 1 ∧
      v.Right (next .parent) { g with forks := g.forks + 1, role := .parent g.forks } ∧
      v.Right (next .child) { g with role := .stage g.forks } := hright

theorem Setting.Right.wait {next : Unit → Prog Reply Unit}
    (hright : v.Right (.perform .wait next) g) :
    g.Ok ∧ (∃ i, g.role = .parent i) ∧ v.Right (next ()) { g with role := .shell } := hright

theorem Setting.Right.execvp {argv : List Text} {next : Unit → Prog Reply Unit}
    (hright : v.Right (.perform (.execvp argv) next) g) :
    ∃ i, g.role = .stage i ∧
      Standard (source v.infile i) (target v.outfile v.blocks i) i g.fds := hright

theorem Setting.Right.pure {value : Unit} (hright : v.Right (.pure value) g) :
    g.role = .shell ∧ g.forks = v.total := hright

/-- While a stage runs, the shell does not write to the pipe that feeds it and can read from the one
behind it. -/
theorem Setting.Right.ok {p : Prog Reply Unit} (hright : v.Right p g)
    (hrole : g.role = .parent i) : NoWriter i g.fds ∧ ∃ fd, g.fds.get fd = some (.readEnd i) := by
  have hok : g.Ok := by
    cases p with
    | pure value => exact nomatch hrole.symm.trans hright.pure.1
    | perform c next =>
        cases c with
        | pipe => exact nomatch hrole.symm.trans hright.pipe.1
        | fork => exact nomatch hrole.symm.trans hright.fork.1
        | execvp argv =>
            obtain ⟨j, hstage, -⟩ := hright.execvp
            exact nomatch hrole.symm.trans hstage
        | nullDereference => exact hright.elim
        | wait => exact hright.wait.1
        | _ => exact hright.1
  unfold Ghost.Ok at hok
  rw [hrole] at hok
  exact hok

end Right

/-! ### Steps of the programs -/

section Programs

variable {v : Setting} {s : State} {ps : List (Proc Command)} {pid child i : Nat} {g g' : Ghost}
  {p p' : Prog Reply Unit} {process : Proc Command}

theorem Setting.Alone.eq_zero (halone : v.Alone s g p) (hprocess : s.processes[pid]? = some process)
    (hlife : process.isReaped = false) : pid = 0 :=
  List.mem_singleton.mp (halone.nested.mem hprocess hlife)

theorem Setting.Waiting.eq_or (hwaiting : v.Waiting s i g p)
    (hprocess : s.processes[pid]? = some process) (hlife : process.isReaped = false) :
    pid = i + 1 ∨ pid = 0 := by
  have hmem := hwaiting.nested.mem hprocess hlife
  simpa using hmem

theorem Setting.StageOk.not_reaped {pipes : List Nat} {fds : Fds} {life : Life (Code Command)}
    {parent : Option Nat} (hstage : v.StageOk i pipes fds life) :
    (⟨parent, fds, life⟩ : Proc Command).isReaped = false := by
  cases hstage <;> rfl

/-- The stage goes on. -/
theorem Setting.Waiting.goOn {fds fds' : Fds} {life life' : Life (Code Command)}
    {pipes : List Nat} {input : Nat} (hwaiting : v.Waiting s i g p)
    (hchild : s.processes[i + 1]? = some ⟨some 0, fds, life⟩)
    (hstage : v.StageOk i s.pipes fds life) (hpipes : pipes.length = s.pipes.length)
    (hstage' : v.StageOk i pipes fds' life') :
    v.Inv ⟨s.processes.set (i + 1) ⟨some 0, fds', life'⟩, pipes, input⟩ := by
  refine .waits (g := g) (p := p) ?_ (getElem?_set_of_some hchild _) hstage'
  exact
    { hwaiting with
      nested := hwaiting.nested.set hchild hstage.not_reaped rfl hstage'.not_reaped
      shell := (List.getElem?_set_ne (Nat.succ_ne_zero i)).trans hwaiting.shell
      length := List.length_set.trans hwaiting.length
      pipes := hpipes.trans hwaiting.pipes }

/-- The shell goes on while the stage is running. -/
theorem Setting.Waiting.shellGoOn {fds : Fds} {life : Life (Code Command)}
    (hwaiting : v.Waiting s i g p) (hchild : s.processes[i + 1]? = some ⟨some 0, fds, life⟩)
    (hstage : v.StageOk i s.pipes fds life) (hright : v.Right p' g') (hrole : g'.role = g.role)
    (hforks : g'.forks = g.forks) (hmade : g'.pipes = g.pipes) :
    v.Inv { s with processes := s.processes.set 0 (inShell none g'.fds p') } := by
  refine .waits (g := g') (p := p') ?_ ?_ hstage
  · exact
      { nested := hwaiting.nested.set hwaiting.shell rfl rfl rfl
        shell := getElem?_set_of_some hwaiting.shell _
        right := hright
        role := hrole.trans hwaiting.role
        forks := hforks.trans hwaiting.forks
        length := List.length_set.trans hwaiting.length
        pipes := hwaiting.pipes
        made := hmade.trans hwaiting.made
        fits := hwaiting.fits }
  · exact (List.getElem?_set_ne (Nat.succ_ne_zero i).symm).trans hchild

/-- Who runs the program. -/
inductive Setting.Actor (v : Setting) (s : State) (p : Prog Reply Unit) :
    Nat → Option Nat → Fds → Prop where
  | alone {g : Ghost} (halone : v.Alone s g p) : Actor v s p 0 none g.fds
  | shell {g : Ghost} {i : Nat} {fds : Fds} {life : Life (Code Command)}
      (hwaiting : v.Waiting s i g p) (hchild : s.processes[i + 1]? = some ⟨some 0, fds, life⟩)
      (hstage : v.StageOk i s.pipes fds life) : Actor v s p 0 none g.fds
  | stage {g g' : Ghost} {p' : Prog Reply Unit} {i : Nat} (hwaiting : v.Waiting s i g' p')
      (hchild : s.processes[i + 1]? = some (inShell (some 0) g.fds p)) (hrole : g.role = .stage i)
      (hright : v.Right p g) (hempty : s.pipes[i]? = some 0) : Actor v s p (i + 1) (some 0) g.fds

theorem Setting.Inv.actor (hinv : v.Inv s) {parent : Option Nat} {fds : Fds}
    (hprocess : s.processes[pid]? = some (inShell parent fds p)) : v.Actor s p pid parent fds := by
  cases hinv with
  | alone halone =>
      obtain rfl := halone.eq_zero hprocess rfl
      cases halone.shell.symm.trans hprocess
      exact .alone halone
  | waits hwaiting hchild hstage =>
      rcases hwaiting.eq_or hprocess rfl with rfl | rfl
      · cases hchild.symm.trans hprocess
        cases hstage with
        | program hrole hright hempty => exact .stage hwaiting hchild hrole hright hempty
      · cases hwaiting.shell.symm.trans hprocess
        exact .shell hwaiting hchild hstage

theorem Setting.Inv.call (hinv : v.Inv s) (hstep : callStep true pid s.processes = some ps) :
    v.Inv { s with processes := ps } := by
  obtain ⟨parent, fds, c, next, result, hprocess, hresult, rfl⟩ := callStep_eq_some hstep
  cases hinv.actor hprocess with
  | alone halone =>
      exact .alone
        { halone with
          nested := halone.nested.set hprocess rfl rfl rfl
          shell := getElem?_set_of_some hprocess _
          right := halone.right.call hresult
          length := List.length_set.trans halone.length }
  | shell hwaiting hchild hstage =>
      exact hwaiting.shellGoOn hchild hstage (hwaiting.right.call hresult) rfl rfl rfl
  | @stage g _ _ _ hwaiting hchild hrole hright hempty =>
      refine hwaiting.goOn hchild (.program hrole hright hempty) rfl ?_
      exact .program (g := { g with fds := result.2 }) hrole (hright.call hresult) hempty

theorem Setting.Inv.pipe (hinv : v.Inv s)
    (hstep : pipeStep s.pipes.length pid s.processes = some ps) :
    v.Inv { s with processes := ps, pipes := s.pipes ++ [0] } := by
  obtain ⟨parent, fds, next, hprocess, rfl⟩ := pipeStep_eq_some hstep
  cases hinv.actor hprocess with
  | @alone g halone =>
      have hright := halone.right.pipe.2
      have hempty : ∀ j, g.forks ≤ j → j < g.pipes + 1 → (s.pipes ++ [0])[j]? = some 0 := by
        intro j hle hlt
        rcases Nat.lt_succ_iff_lt_or_eq.mp hlt with hlt | rfl
        · rw [List.getElem?_append_left (halone.pipes.symm ▸ hlt)]
          exact halone.empty j hle hlt
        · rw [← halone.pipes, List.getElem?_concat_length]
      have hpipes : (s.pipes ++ [0]).length = g.pipes + 1 := by
        rw [List.length_append, halone.pipes]
        rfl
      rw [halone.pipes]
      exact .alone ⟨halone.nested.set hprocess rfl rfl rfl, getElem?_set_of_some hprocess _, hright,
        halone.role, List.length_set.trans halone.length, hpipes, hempty, halone.fits⟩
  | shell hwaiting => exact nomatch hwaiting.role.symm.trans hwaiting.right.pipe.1
  | stage _ _ hrole hright => exact nomatch hrole.symm.trans hright.pipe.1

theorem Setting.Inv.fork (hinv : v.Inv s) (hstep : forkStep pid s.processes = some ps) :
    v.Inv { s with processes := ps } := by
  obtain ⟨parent, fds, next, hprocess, rfl⟩ := forkStep_eq_some hstep
  cases hinv.actor hprocess with
  | @alone g halone =>
      obtain ⟨-, hpipes, hparent, hchild⟩ := halone.right.fork
      have hempty : s.pipes[g.forks]? = some 0 := halone.empty g.forks le_rfl (by omega)
      have hnested : Nested (s.processes.set 0 (inShell none g.fds (next .parent)) ++
          [inShell (some 0) g.fds (next .child)]) [s.processes.length, 0] :=
        halone.nested.set_fork hprocess rfl rfl rfl rfl rfl
      have hstage := getElem?_set_append_length s.processes 0
        (inShell none g.fds (next .parent)) (inShell (some 0) g.fds (next .child))
      rw [halone.length] at hnested hstage
      refine .waits (i := g.forks) (p := next .parent)
        ⟨hnested, ?_, hparent, rfl, rfl, ?_, halone.pipes.trans hpipes, hpipes, halone.fits⟩
        hstage (.program (g := { g with role := .stage g.forks }) rfl hchild hempty)
      · exact getElem?_set_append_self hprocess _ _
      · rw [List.length_append, List.length_set, halone.length]
        rfl
  | shell hwaiting => exact nomatch hwaiting.role.symm.trans hwaiting.right.fork.1
  | stage _ _ hrole hright => exact nomatch hrole.symm.trans hright.fork.1

/-- The shell waits only while it has a stage. -/
theorem Setting.Inv.waiting (hinv : v.Inv s) {parent : Option Nat} {fds : Fds}
    {next : Unit → Prog Reply Unit}
    (hprocess : s.processes[pid]? = some (inShell parent fds (.perform .wait next))) :
    ∃ g i fds' life, pid = 0 ∧ parent = none ∧ fds = g.fds ∧
      v.Waiting s i g (.perform .wait next) ∧
      s.processes[i + 1]? = some ⟨some 0, fds', life⟩ ∧ v.StageOk i s.pipes fds' life := by
  cases hinv.actor hprocess with
  | alone halone =>
      obtain ⟨-, ⟨i, hrole⟩, -⟩ := halone.right.wait
      exact nomatch halone.role.symm.trans hrole
  | stage _ _ hrole hright =>
      obtain ⟨-, ⟨j, hparent⟩, -⟩ := hright.wait
      exact nomatch hrole.symm.trans hparent
  | shell hwaiting hchild hstage => exact ⟨_, _, _, _, rfl, rfl, rfl, hwaiting, hchild, hstage⟩

theorem Setting.Inv.wait (hinv : v.Inv s) (hstep : waitStep child pid s.processes = some ps) :
    v.Inv { s with processes := ps } := by
  obtain ⟨parent, fds, next, fds', hprocess, hexited, rfl⟩ := waitStep_eq_some hstep
  obtain ⟨g, i, _, _, rfl, rfl, rfl, hwaiting, hchild, hstage⟩ := hinv.waiting hprocess
  have hright := hwaiting.right.wait.2.2
  have hforks := hwaiting.forks
  have hmade := hwaiting.made
  rcases hwaiting.eq_or hexited rfl with rfl | rfl
  · cases hchild.symm.trans hexited
    cases hstage with
    | exited hfits =>
        have hshell : (s.processes.set (i + 1) ⟨some 0, fds', .reaped⟩)[0]? =
            some (inShell none g.fds (.perform .wait next)) :=
          (List.getElem?_set_ne (Nat.succ_ne_zero i)).trans hprocess
        refine .alone (g := { g with role := .shell })
          ⟨(hwaiting.nested.reap rfl).set hshell rfl rfl rfl, getElem?_set_of_some hshell _, hright,
            rfl, ?_, ?_, fun j hle hlt => ?_, fun j hj => ?_⟩
        · rw [List.length_set, List.length_set, hwaiting.length, hforks]
        · rw [hwaiting.pipes, hmade]
        · exact absurd (hle.trans_lt hlt) (by simp only [hforks, hmade]; omega)
        · rcases Nat.lt_succ_iff_lt_or_eq.mp (hj.trans_eq hforks) with hj | rfl
          · exact hwaiting.fits j hj
          · exact hfits
  · exact nomatch hprocess.symm.trans hexited

theorem Setting.Inv.not_childless (hinv : v.Inv s) : childlessStep pid s.processes ≠ some ps := by
  intro hstep
  obtain ⟨parent, fds, next, hprocess, hreaped, -⟩ := childlessStep_eq_some hstep
  obtain ⟨g, i, fds', life, rfl, rfl, rfl, hwaiting, hchild, hstage⟩ := hinv.waiting hprocess
  have hlife := hreaped _ (List.mem_of_getElem? hchild) rfl
  rw [hstage.not_reaped] at hlife
  exact nomatch hlife

theorem Setting.Inv.execvp (hinv : v.Inv s)
    (hstep : execvpStep (.ready (v.writes (pid - 1)) false) pid s.processes = some ps) :
    v.Inv { s with processes := ps } := by
  obtain ⟨parent, fds, argv, next, hprocess, rfl⟩ := execvpStep_eq_some hstep
  cases hinv.actor hprocess with
  | alone halone =>
      obtain ⟨i, hrole, -⟩ := halone.right.execvp
      exact nomatch halone.role.symm.trans hrole
  | shell hwaiting =>
      obtain ⟨j, hrole, -⟩ := hwaiting.right.execvp
      exact nomatch hwaiting.role.symm.trans hrole
  | stage hwaiting hchild hrole hright hempty =>
      obtain ⟨j, hstage, hstandard⟩ := hright.execvp
      cases hrole.symm.trans hstage
      refine hwaiting.goOn hchild (.program hrole hright hempty) rfl ?_
      exact .command hstandard fun _ => ⟨0, hempty, Nat.zero_le _, Nat.zero_add _⟩

theorem Setting.Inv.not_crash (hinv : v.Inv s) : crashStep pid s.processes ≠ some ps := by
  intro hstep
  obtain ⟨parent, fds, next, hprocess, -⟩ := crashStep_eq_some hstep
  cases hinv.actor hprocess with
  | alone halone => exact halone.right.elim
  | shell hwaiting => exact hwaiting.right.elim
  | stage _ _ _ hright => exact hright.elim

end Programs

/-! ### Steps of the commands -/

section Commands

variable {v : Setting} {s s' : State} {pid i : Nat} {g : Ghost} {p : Prog Reply Unit} {fds : Fds}
  {command : Command}

theorem State.isOpen_iff {object : Object} : s.isOpen object = true ↔
    ∃ (pid : Nat) (parent : Option Nat) (fds : Fds) (code : Code Command),
      s.processes[pid]? = some ⟨parent, fds, .running code⟩ ∧
      ∃ fd, fds.get fd = some object := by
  rw [State.isOpen, List.any_eq_true]
  constructor
  · rintro ⟨⟨parent, fds, life⟩, hmem, hholds⟩
    obtain ⟨pid, hpid⟩ := List.mem_iff_getElem?.mp hmem
    cases life with
    | running code => exact ⟨pid, parent, fds, code, hpid, Table.holds_iff.mp hholds⟩
    | exited | reaped => exact nomatch hholds
  · rintro ⟨pid, parent, fds, code, hpid, hget⟩
    exact ⟨_, List.mem_of_getElem? hpid, Table.holds_iff.mpr hget⟩

/-- The shell keeps the pipe behind the stage open. -/
theorem Setting.Waiting.isOpen_readEnd (hwaiting : v.Waiting s i g p) :
    s.isOpen (.readEnd i) = true :=
  State.isOpen_iff.mpr ⟨0, none, g.fds, _, hwaiting.shell, (hwaiting.right.ok hwaiting.role).2⟩

/-- Nobody can write to the pipe before the stage. -/
theorem Setting.Waiting.isOpen_writeEnd {j : Nat} {code : Code Command}
    (hwaiting : v.Waiting s i g p)
    (hchild : s.processes[i + 1]? = some ⟨some 0, fds, .running code⟩) (hno : NoWriter i fds)
    (hj : j + 1 = i) : s.isOpen (.writeEnd j) = false := by
  rw [Bool.eq_false_iff]
  intro hopen
  obtain ⟨pid, parent, fds', code', hpid, fd, hget⟩ := State.isOpen_iff.mp hopen
  rcases hwaiting.eq_or hpid rfl with rfl | rfl
  · cases hchild.symm.trans hpid
    exact hno j fd hj hget
  · cases hwaiting.shell.symm.trans hpid
    exact (hwaiting.right.ok hwaiting.role).1 j fd hj hget

/-- Only the last stage writes to something else than a pipe. -/
theorem Setting.Waiting.write_eq (hwaiting : v.Waiting s i g p)
    (hstdout : fds.get stdoutFileno = some (target v.outfile v.blocks i)) (left : Nat)
    (eof : Bool) :
    s.write v.capacity (i + 1) (some 0) fds left eof =
      if i < v.blocks then
        if s.pipes[i]?.getD 0 < v.capacity then
          some { s.goOn (i + 1) ⟨some 0, fds, .running (.other (.ready left eof))⟩ with
            pipes := s.pipes.modify i (· + 1) }
        else none
      else some (s.goOn (i + 1) ⟨some 0, fds, .running (.other (.ready left eof))⟩) := by
  rw [State.write, hstdout]
  by_cases hlast : i < v.blocks
  · rw [if_pos hlast, target_of_lt hlast]
    simp only [hwaiting.isOpen_readEnd]
    rfl
  · rw [if_neg hlast, target_of_not_lt hlast]
    cases v.outfile <;> rfl

/-- The first stage reads from something that is not a pipe. -/
theorem State.read_eq (hstdin : fds.get stdinFileno = some (source v.infile 0)) (left : Nat) :
    s.read 1 (some 0) fds left =
      if 0 < s.input then
        some { s.goOn 1 ⟨some 0, fds, .running (.other (.ready left false))⟩ with
          input := s.input - 1 }
      else some (s.goOn 1 ⟨some 0, fds, .running (.other (.ready left true))⟩) := by
  rw [State.read, hstdin]
  obtain ⟨infile⟩ := v
  cases infile <;> rfl

/-- Every other stage reads from a pipe and sees the end of it. -/
theorem Setting.Waiting.read_eq {j : Nat} {code : Code Command} (hwaiting : v.Waiting s (j + 1) g p)
    (hchild : s.processes[j + 2]? = some ⟨some 0, fds, .running code⟩)
    (hstdin : fds.get stdinFileno = some (source v.infile (j + 1))) (hno : NoWriter (j + 1) fds)
    (left : Nat) :
    s.read (j + 2) (some 0) fds left =
      if 0 < s.pipes[j]?.getD 0 then
        some { s.goOn (j + 2) ⟨some 0, fds, .running (.other (.ready left false))⟩ with
          pipes := s.pipes.modify j (· - 1) }
      else some (s.goOn (j + 2) ⟨some 0, fds, .running (.other (.ready left true))⟩) := by
  rw [State.read, hstdin]
  have hopen := hwaiting.isOpen_writeEnd hchild hno rfl
  simp only [source, hopen, Bool.false_eq_true, if_false]

/-- A command is run by the stage that the shell has not waited for. -/
theorem Setting.Inv.commandActor (hinv : v.Inv s) {parent : Option Nat}
    (hprocess : s.processes[pid]? = some ⟨parent, fds, .running (.other command)⟩) :
    ∃ g p i, pid = i + 1 ∧ parent = some 0 ∧ v.Waiting s i g p ∧
      Standard (source v.infile i) (target v.outfile v.blocks i) i fds ∧
      (i < v.blocks →
        ∃ n, s.pipes[i]? = some n ∧ n ≤ v.capacity ∧ n + command.left = v.writes i) := by
  cases hinv with
  | alone halone =>
      obtain rfl := halone.eq_zero hprocess rfl
      cases halone.shell.symm.trans hprocess
  | waits hwaiting hchild hstage =>
      rcases hwaiting.eq_or hprocess rfl with rfl | rfl
      · cases hchild.symm.trans hprocess
        cases hstage with
        | command hstandard hpipe => exact ⟨_, _, _, rfl, rfl, hwaiting, hstandard, hpipe⟩
      · cases hwaiting.shell.symm.trans hprocess

theorem Setting.Inv.commandStep {action : CommandAction} (hinv : v.Inv s)
    (hstep : Pipe.commandStep v.capacity action pid s = some s') : v.Inv s' := by
  unfold Pipe.commandStep at hstep
  split at hstep
  · rename_i parent fds command hprocess
    obtain ⟨g, p, i, rfl, rfl, hwaiting, hstandard, hpipe⟩ := hinv.commandActor hprocess
    have hgoOn {life : Life (Code Command)} {pipes : List Nat} {input : Nat}
        (hpipes : pipes.length = s.pipes.length) (hstage : v.StageOk i pipes fds life) :
        v.Inv ⟨s.processes.set (i + 1) ⟨some 0, fds, life⟩, pipes, input⟩ :=
      hwaiting.goOn hprocess (.command hstandard hpipe) hpipes hstage
    split at hstep
    · cases hstep
      exact hgoOn rfl (.command hstandard hpipe)
    · cases hstep
      exact hgoOn rfl (.command hstandard hpipe)
    · rename_i left eof
      rw [hwaiting.write_eq hstandard.stdout] at hstep
      split_ifs at hstep with hlast hroom
      · cases hstep
        obtain ⟨n, hn, hle, hsum⟩ := hpipe hlast
        refine hgoOn (List.length_modify ..) (.command hstandard fun _ => ⟨n + 1, ?_, ?_, ?_⟩)
        · rw [List.getElem?_modify_eq, hn]
          rfl
        · rw [hn] at hroom
          exact hroom
        · have hleft : n + (left + 1) = v.writes i := hsum
          change n + 1 + left = v.writes i
          omega
      · cases hstep
        exact hgoOn rfl (.command hstandard fun hlt => absurd hlt hlast)
    · rename_i left
      cases i with
      | zero =>
          rw [State.read_eq hstandard.stdin] at hstep
          split_ifs at hstep
          · cases hstep
            exact hgoOn rfl (.command hstandard hpipe)
          · cases hstep
            exact hgoOn rfl (.command hstandard hpipe)
      | succ j =>
          rw [hwaiting.read_eq hprocess hstandard.stdin hstandard.noWriter] at hstep
          split_ifs at hstep
          · cases hstep
            refine hgoOn (List.length_modify ..) (.command hstandard fun hlt => ?_)
            rw [List.getElem?_modify_ne _ _ (Nat.ne_of_lt (Nat.lt_succ_self j))]
            exact hpipe hlt
          · cases hstep
            exact hgoOn rfl (.command hstandard hpipe)
    · cases hstep
      refine hgoOn rfl (.exited fun hlast => ?_)
      obtain ⟨n, -, hle, hsum⟩ := hpipe hlast
      exact hsum ▸ hle
    · exact nomatch hstep
  · exact nomatch hstep

end Commands

theorem Setting.Inv.perform {v : Setting} {s s' : State} {label : Nat × Action} (hinv : v.Inv s)
    (hstep : perform v.capacity v.writes label s = some s') : v.Inv s' := by
  obtain ⟨pid, action⟩ := label
  cases action with
  | command action => exact hinv.commandStep hstep
  | call =>
      obtain ⟨ps, hps, rfl⟩ := Option.map_eq_some_iff.mp hstep
      exact hinv.call hps
  | pipe =>
      obtain ⟨ps, hps, rfl⟩ := Option.map_eq_some_iff.mp hstep
      exact hinv.pipe hps
  | fork =>
      obtain ⟨ps, hps, rfl⟩ := Option.map_eq_some_iff.mp hstep
      exact hinv.fork hps
  | wait child =>
      obtain ⟨ps, hps, rfl⟩ := Option.map_eq_some_iff.mp hstep
      exact hinv.wait hps
  | childless =>
      obtain ⟨ps, hps, rfl⟩ := Option.map_eq_some_iff.mp hstep
      exact absurd hps hinv.not_childless
  | execvp =>
      obtain ⟨ps, hps, rfl⟩ := Option.map_eq_some_iff.mp hstep
      exact hinv.execvp hps
  | crash =>
      obtain ⟨ps, hps, rfl⟩ := Option.map_eq_some_iff.mp hstep
      exact absurd hps hinv.not_crash

/-- The setting of a line: all but the last of the stages write to pipes. -/
def settingOf (tokens : List Token) (capacity : Nat) (writes : Nat → Nat) : Setting where
  infile := fileName .infile tokens
  outfile := fileName .outfile tokens
  blocks := stageCount tokens - 1
  total := stageCount tokens
  capacity := capacity
  writes := writes

theorem inv_of_reachable {tokenizer : Tokenizer} (hwell : WellFormed tokenizer.tokens)
    (hpipes : 0 < count .pipe tokenizer.tokens) {fds : Fds} (hfds : Inherits fds) {capacity : Nat}
    {writes : Nat → Nat} {s : State}
    (hreach : Reachable (pipeline tokenizer fds capacity writes) s) :
    (settingOf tokenizer.tokens capacity writes).Inv s := by
  refine hreach.invariant ?_ fun label s s' hinv hstep => hinv.perform hstep
  rintro s ⟨hprocesses, hempty⟩
  have hshell : s.processes[0]? = some (inShell none fds (exec tokenizer)) := by
    rw [hprocesses]
    rfl
  have hnested : Nested s.processes [0] := hprocesses ▸ .single rfl rfl
  have hblocks : ¬Refused tokenizer.tokens →
      stageCount tokenizer.tokens - 1 = count .pipe tokenizer.tokens := fun hrefused => by
    rw [stageCount, if_neg hrefused, Nat.add_sub_cancel]
  refine .alone ⟨hnested, hshell, exec_ensures tokenizer hwell hpipes hfds hblocks, rfl,
    ?_, ?_, ?_, ?_⟩
  · rw [hprocesses]
    rfl
  · rw [hempty]
    rfl
  · exact fun j _ hlt => absurd hlt (Nat.not_lt_zero j)
  · exact fun j hlt => absurd hlt (Nat.not_lt_zero j)

end Acos.Shell.Pipe
