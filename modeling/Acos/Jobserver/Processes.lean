import Acos.Lib.Interleaving

/-!
# The processes of the job server

Main takes a byte out of the pipe for each file and forks a watcher, which forks the user process,
waits for it and writes the byte back. Any process may take the next step. A read of the empty pipe
and a write to the full one wait; a fork of a watcher or of a user process and an `execl` may fail.

The files are those `walk_dir` calls `run_watcher` with, in order.
-/

namespace Acos.Jobserver

open Transition Interleaving

/-- The process of the file: forked but not yet executed, executing the file, or ended. -/
inductive User where
  | forked
  | running
  | finished
  deriving DecidableEq

/-- The next call of a watcher. One that has ended also tells whether it has written its byte. -/
inductive Watcher where
  | fork
  | waitpid (user : User)
  | release
  | exit
  | exited (released : Bool)
  | reaped (released : Bool)
  deriving DecidableEq

inductive WatcherAction where
  | fork (succeeds : Bool)
  /-- The user process calls `execl`. -/
  | execl (succeeds : Bool)
  /-- The user process ends. -/
  | finish
  | waitpid
  | release
  | exit
  deriving DecidableEq

/-- The branch of `run_watcher` in the child, together with the user process. -/
def Watcher.next (capacity pipe : Nat) : WatcherAction → Watcher → Option (Watcher × Nat)
  | .fork true, .fork => some (.waitpid .forked, pipe)
  -- `err` ends the watcher
  | .fork false, .fork => some (.exited false, pipe)
  | .execl true, .waitpid .forked => some (.waitpid .running, pipe)
  -- `err` ends the user process
  | .execl false, .waitpid .forked => some (.waitpid .finished, pipe)
  | .finish, .waitpid .running => some (.waitpid .finished, pipe)
  | .waitpid, .waitpid .finished => some (.release, pipe)
  | .release, .release => if pipe < capacity then some (.exit, pipe + 1) else none
  | .exit, .exit => some (.exited true, pipe)
  | _, _ => none

def Watcher.isReaped : Watcher → Bool
  | .reaped _ => true
  | _ => false

/-- The next call of main. -/
inductive Main (File : Type) where
  | preload (count : Nat) (files : List File)
  | walk (files : List File)
  /-- Between `acquire` and the fork of `run_watcher`. -/
  | runWatcher (file : File) (files : List File)
  | wait
  | returned
  /-- The fork has failed. -/
  | exited
  deriving DecidableEq

inductive MainAction where
  | release
  | walkDir
  | acquire
  | fork (succeeds : Bool)
  | endWalk
  /-- `wait` returns for an ended watcher. -/
  | wait (watcher : Nat)
  /-- `wait` returns `-1`. -/
  | noChild
  deriving DecidableEq

inductive Action where
  | main (action : MainAction)
  | watcher (watcher : Nat) (action : WatcherAction)
  deriving DecidableEq

/-- The number of bytes in the pipe, main, and the watchers in the order of their forks with the
files they were forked for. -/
structure State (File : Type) where
  pipe : Nat
  main : Main File
  watchers : List Watcher
  started : List File

variable {File : Type}

/-- A step of main. -/
def mainStep (k capacity : Nat) (action : MainAction) (s : State File) : Option (State File) :=
  match action, s.main with
  | .release, .preload count files =>
      if count < k ∧ s.pipe < capacity then
        some { s with pipe := s.pipe + 1, main := .preload (count + 1) files }
      else none
  | .walkDir, .preload count files =>
      if count < k then none else some { s with main := .walk files }
  | .acquire, .walk (file :: files) =>
      if s.pipe = 0 then none
      else some { s with pipe := s.pipe - 1, main := .runWatcher file files }
  | .fork true, .runWatcher file files =>
      some { s with
        main := .walk files, watchers := s.watchers ++ [.fork], started := s.started ++ [file] }
  | .fork false, .runWatcher _ _ => some { s with main := .exited }
  | .endWalk, .walk [] => some { s with main := .wait }
  | .wait watcher, .wait =>
      match s.watchers[watcher]? with
      | some (.exited released) =>
          some { s with watchers := s.watchers.set watcher (.reaped released) }
      | _ => none
  | .noChild, .wait =>
      if s.watchers.all Watcher.isReaped then some { s with main := .returned } else none
  | _, _ => none

/-- A step of a watcher or of its user process. -/
def watcherStep (capacity watcher : Nat) (action : WatcherAction) (s : State File) :
    Option (State File) := do
  let old ← s.watchers[watcher]?
  let (next, pipe) ← old.next capacity s.pipe action
  return { s with pipe := pipe, watchers := s.watchers.set watcher next }

def perform (k capacity : Nat) : Action → State File → Option (State File)
  | .main action => mainStep k capacity action
  | .watcher watcher action => watcherStep capacity watcher action

/-- Main has made the pipe and is about to preload it. -/
def Initial (s : State File) : Prop := ∃ files, s = ⟨0, .preload 0 files, [], []⟩

def jobserver (File : Type) (k capacity : Nat) : System (State File) Action :=
  .ofFunction Initial (perform k capacity)

end Acos.Jobserver
