import Mathlib.Logic.Function.Basic
import Acos.Lib.Transition
import Acos.Shell.Kernel
import Acos.Shell.FirstPass
import Acos.Shell.Tokenizer

/-!
# A session of the shell

`main` reads a line, splits it into tokens and calls `Exec`, until there is no line left. A process
between two lines has nothing left of its program. A child of `Exec` that does not become a command
returns from `Exec` like the shell itself, and reads the next line from whatever its standard input
is by then.

The standard input of the shell is not buffered, so that the processes share what is left of it. The
commands are left open, but take no lines from it. What is read from a file or a pipe is one of the
lines of the file, or any line.
-/

namespace Acos.Shell.Pipe.Session

open Program Descriptors Processes Transition

/-- The result of `GetCmd`, an `int`, for a line. -/
def getCmd (line : Line) : Int := toInt line.text.length

/-- A line that was read, with what the process had for its standard input and output. -/
structure Entry where
  line : Line
  stdin : Option Object
  stdout : Option Object
deriving DecidableEq

/-- The number and the tokens of a line. -/
structure Work where
  number : Nat
  tokens : List Token

/-- The processes with the line each one works on, the lines that have not been read, those that
have, the numbers of the lines whose commands were started, and the number of the pipes. -/
structure State where
  processes : List (Proc Unit)
  work : Nat → Work
  remaining : List Line
  log : List Entry
  started : List Nat
  pipes : Nat

/-- What `getline` reads from an object, if anything, and what it leaves of the standard input. -/
def State.getline (s : State) (contents : Text → List Line) (choice : Option Line) :
    Option Object → Option (Option Line × List Line)
  | some (.inherited 0) => some (s.remaining.head?, s.remaining.tail)
  | some (.infile name) =>
      match choice with
      | some line => if line ∈ contents name then some (line, s.remaining) else none
      | none => some (none, s.remaining)
  | some (.readEnd _) => some (choice, s.remaining)
  | _ => some (none, s.remaining)

/-- The process works on the line from now on. -/
def State.begin (s : State) (pid : Nat) (parent : Option Nat) (fds : Fds) (line : Line)
    (remaining : List Line) : State :=
  { s with
    processes := s.processes.set pid (inShell parent fds (exec (tokenizerInit line)))
    work := Function.update s.work pid ⟨s.log.length, (tokenizerInit line).tokens⟩
    remaining := remaining
    log := s.log ++ [⟨line, fds.get stdinFileno, fds.get stdoutFileno⟩] }

/-- The loop of `main`, which ends with the lines, or with a line for which `GetCmd` is not
positive. -/
def mainStep (contents : Text → List Line) (choice : Option Line) (pid : Nat) (s : State) :
    Option State :=
  match s.processes[pid]? with
  | some ⟨parent, fds, .running (.program (.pure ()))⟩ =>
      match s.getline contents choice (fds.get stdinFileno) with
      | some (some line, remaining) =>
          if 0 < getCmd line then some (s.begin pid parent fds line remaining)
          else some { s with
            processes := s.processes.set pid ⟨parent, fds, .exited⟩, remaining := remaining }
      | some (none, remaining) =>
          some { s with
            processes := s.processes.set pid ⟨parent, fds, .exited⟩, remaining := remaining }
      | none => none
  | _ => none

/-- A command comes to its end. -/
def exitStep (pid : Nat) (ps : List (Proc Unit)) : Option (List (Proc Unit)) :=
  match ps[pid]? with
  | some ⟨parent, fds, .running (.other ())⟩ => some (ps.set pid ⟨parent, fds, .exited⟩)
  | _ => none

inductive Action where
  | main (choice : Option Line)
  | call (ok : Bool)
  | pipe
  | fork
  | wait (child : Nat)
  | childless
  | found
  | notFound
  | crash
  | exit

/-- A step of a process. The forks and the pipes succeed, and a child works on the line of its
parent. -/
def perform (contents : Text → List Line) : Nat × Action → State → Option State
  | (pid, .main choice), s => mainStep contents choice pid s
  | (pid, .call ok), s => (callStep ok pid s.processes).map fun ps => { s with processes := ps }
  | (pid, .pipe), s =>
      (pipeStep s.pipes pid s.processes).map fun ps =>
        { s with processes := ps, pipes := s.pipes + 1 }
  | (pid, .fork), s =>
      (forkStep pid s.processes).map fun ps =>
        { s with processes := ps, work := Function.update s.work s.processes.length (s.work pid) }
  | (pid, .wait child), s =>
      (waitStep child pid s.processes).map fun ps => { s with processes := ps }
  | (pid, .childless), s =>
      (childlessStep pid s.processes).map fun ps => { s with processes := ps }
  | (pid, .found), s =>
      (execvpStep () pid s.processes).map fun ps =>
        { s with processes := ps, started := s.started ++ [(s.work pid).number] }
  | (pid, .notFound), s => (notFoundStep pid s.processes).map fun ps => { s with processes := ps }
  | (pid, .crash), s => (crashStep pid s.processes).map fun ps => { s with processes := ps }
  | (pid, .exit), s => (exitStep pid s.processes).map fun ps => { s with processes := ps }

/-- The shell with these descriptors before the first line. -/
def start (lines : List Line) (fds : Fds) : State where
  processes := [inShell none fds (.pure ())]
  work _ := ⟨0, []⟩
  remaining := lines
  log := []
  started := []
  pipes := 0

def session (contents : Text → List Line) (lines : List Line) (fds : Fds) :
    System State (Nat × Action) :=
  .ofFunction (· = start lines fds) (perform contents)

/-- The standard input and output of the shell. -/
structure Base (fds : Fds) : Prop where
  stdin : fds.get stdinFileno = some (.inherited 0)
  stdout : fds.get stdoutFileno = some (.inherited 1)

/-- Every line is read once, in their order, by a process that has the standard input and output of
the shell. No command of a line is started behind one of a later line, and the first shell, which
has no parent, does not exit before all lines are read. -/
structure Isolated (lines : List Line) (s : State) : Prop where
  lines : s.log.map Entry.line ++ s.remaining = lines
  stdin : ∀ entry ∈ s.log, entry.stdin = some (.inherited 0)
  stdout : ∀ entry ∈ s.log, entry.stdout = some (.inherited 1)
  order : s.started.Pairwise (· ≤ ·)
  finished : ∀ (pid : Nat) (fds : Fds), s.processes[pid]? = some ⟨none, fds, .exited⟩ →
    s.remaining = []

/-- All lines have been read and processed, and no process is left. -/
structure Complete (lines : List Line) (s : State) : Prop where
  lines : s.log.map Entry.line = lines
  exited : ∀ process ∈ s.processes, ∀ code, process.life ≠ .running code

/-- The next call of the process opens a file. -/
def State.opens (s : State) (pid : Nat) : Bool :=
  match s.processes[pid]? with
  | some ⟨_, _, .running (.program (.perform (.openRead _) _))⟩ => true
  | some ⟨_, _, .running (.program (.perform (.openWrite _) _))⟩ => true
  | _ => false

/-- The line is one command without redirections. -/
structure Plain (tokens : List Token) : Prop where
  pipe : count .pipe tokens = 0
  infile : count .infile tokens = 0
  outfile : count .outfile tokens = 0

instance (tokens : List Token) : Decidable (Plain tokens) :=
  decidable_of_iff (count .pipe tokens = 0 ∧ count .infile tokens = 0 ∧ count .outfile tokens = 0)
    ⟨fun ⟨hpipe, hinfile, houtfile⟩ => ⟨hpipe, hinfile, houtfile⟩,
      fun hplain => ⟨hplain.pipe, hplain.infile, hplain.outfile⟩⟩

/-- The length of the line as an `int` is positive, and the line does not start with a pipe, unless
it has a defect for which it is refused. -/
structure Proper (line : Line) : Prop where
  length : 0 < getCmd line
  leading : ∀ t ∈ (tokenizerInit line).tokens.head?, t.type = .pipe →
    Detected (tokenizerInit line).tokens

instance (line : Line) : Decidable (Proper line) :=
  decidable_of_iff (0 < getCmd line ∧ ∀ t ∈ (tokenizerInit line).tokens.head?, t.type = .pipe →
      ∀ scan ∈ Scan.steps (tokenizerInit line).tokens {}, scan.Rejects) <| by
    have hdetected := detected_iff (tokenizerInit line).length_lt
    exact ⟨fun h => ⟨h.1, fun t ht htype => hdetected.mpr (h.2 t ht htype)⟩,
      fun h => ⟨h.length, fun t ht htype => hdetected.mp (h.leading t ht htype)⟩⟩

/-- A file that cannot be opened is one of a single command, a command that is not found is a single
one without redirections, and the next line is a proper one. -/
def Harmless : Nat × Action → State → Prop
  | (pid, .call ok), s => ok = false → s.opens pid = true → count .pipe (s.work pid).tokens = 0
  | (pid, .notFound), s => Plain (s.work pid).tokens
  | (_, .main _), s => ∀ line ∈ s.remaining.head?, Proper line
  | _, _ => True

instance : (label : Nat × Action) → (s : State) → Decidable (Harmless label s)
  | (pid, .call ok), s =>
      inferInstanceAs
        (Decidable (ok = false → s.opens pid = true → count .pipe (s.work pid).tokens = 0))
  | (pid, .notFound), s => inferInstanceAs (Decidable (Plain (s.work pid).tokens))
  | (_, .main _), s => inferInstanceAs (Decidable (∀ line ∈ s.remaining.head?, Proper line))
  | (_, .pipe), _ | (_, .fork), _ | (_, .wait _), _ | (_, .childless), _ | (_, .found), _
  | (_, .crash), _ | (_, .exit), _ => inferInstanceAs (Decidable True)

end Acos.Shell.Pipe.Session
