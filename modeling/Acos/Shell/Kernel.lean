import Acos.Lib.Descriptors
import Acos.Lib.Processes
import Acos.Shell.Calls

/-!
# Processes of the shell

A process has a descriptor table, and its code is a program of the shell or something else that is
left to the system it is a part of. The steps below are those of the programs. Each one is a
function from the processes to the processes, and has no result where it cannot be taken.
-/

namespace Acos.Shell

open Program Descriptors Processes

/-- What a descriptor refers to: something the first shell has found under this number, a file, or
an end of a pipe. -/
inductive Object where
  | inherited (fd : Nat)
  | infile (name : Text)
  | outfile (name : Text)
  | readEnd (pipe : Nat)
  | writeEnd (pipe : Nat)
  deriving DecidableEq

abbrev Fds := Table Object

/-- A call that concerns the descriptors of the calling process only. The outcome of an open and of
an allocation is given. -/
def effect (ok : Bool) : (c : Call) → Fds → Option (Reply c × Fds)
  | .dup fd, fds =>
      match fds.get fd with
      | some object => some (fds.alloc object)
      | none => some (-1, fds)
  | .dup2 oldfd newfd, fds =>
      match fds.get oldfd with
      | some object => some (true, fds.put newfd (some object))
      | none => some (false, fds)
  | .close fd, fds => some ((), fds.close fd)
  | .openRead name, fds => some (if ok then fds.alloc (.infile name) else (-1, fds))
  | .openWrite name, fds => some (if ok then fds.alloc (.outfile name) else (-1, fds))
  | .malloc _ _, fds => some (ok, fds)
  | .free _, fds | .print _, fds | .perror _, fds => some ((), fds)
  | .pipe, _ | .fork, _ | .wait, _ | .execvp _, _ | .nullDereference, _ => none

/-- The two ends of a new pipe. -/
def openPipe (pipe : Nat) (fds : Fds) : (Int × Int) × Fds :=
  let (readFd, fds) := fds.alloc (.readEnd pipe)
  let (writeFd, fds) := fds.alloc (.writeEnd pipe)
  ((readFd, writeFd), fds)

inductive Code (Other : Type) where
  | program (p : Prog Reply Unit)
  | other (code : Other)

variable {Other : Type}

abbrev Proc (Other : Type) := Process Fds (Code Other)

/-- The process is inside the shell with this program left. -/
abbrev inShell (parent : Option Nat) (fds : Fds) (p : Prog Reply Unit) : Proc Other :=
  ⟨parent, fds, .running (.program p)⟩

/-! ### Steps -/

def callStep (ok : Bool) (pid : Nat) (ps : List (Proc Other)) : Option (List (Proc Other)) :=
  match ps[pid]? with
  | some ⟨parent, fds, .running (.program (.perform c next))⟩ =>
      (effect ok c fds).map fun result => ps.set pid (inShell parent result.2 (next result.1))
  | _ => none

/-- The pipe gets a number that no other one has. -/
def pipeStep (pipe pid : Nat) (ps : List (Proc Other)) : Option (List (Proc Other)) :=
  match ps[pid]? with
  | some ⟨parent, fds, .running (.program (.perform .pipe next))⟩ =>
      let (pipefd, fds) := openPipe pipe fds
      some (ps.set pid (inShell parent fds (next (some pipefd))))
  | _ => none

def forkStep (pid : Nat) (ps : List (Proc Other)) : Option (List (Proc Other)) :=
  match ps[pid]? with
  | some ⟨parent, fds, .running (.program (.perform .fork next))⟩ =>
      some (ps.set pid (inShell parent fds (next .parent)) ++
        [inShell (some pid) fds (next .child)])
  | _ => none

def hasExited (pid child : Nat) (ps : List (Proc Other)) : Bool :=
  match ps[child]? with
  | some ⟨parent, _, .exited⟩ => parent == some pid
  | _ => false

/-- A child that has exited is waited for. -/
def waitStep (child pid : Nat) (ps : List (Proc Other)) : Option (List (Proc Other)) :=
  match ps[pid]? with
  | some ⟨parent, fds, .running (.program (.perform .wait next))⟩ =>
      if hasExited pid child ps then
        some ((ps.modify child fun process => { process with life := .reaped }).set pid
          (inShell parent fds (next ())))
      else none
  | _ => none

/-- Without children `wait` returns at once. -/
def childlessStep (pid : Nat) (ps : List (Proc Other)) : Option (List (Proc Other)) :=
  match ps[pid]? with
  | some ⟨parent, fds, .running (.program (.perform .wait next))⟩ =>
      if ps.all fun process => process.isReaped || process.parent != some pid then
        some (ps.set pid (inShell parent fds (next ())))
      else none
  | _ => none

/-- The command has been found, and the process runs its code from now on. -/
def execvpStep (code : Other) (pid : Nat) (ps : List (Proc Other)) : Option (List (Proc Other)) :=
  match ps[pid]? with
  | some ⟨parent, fds, .running (.program (.perform (.execvp _) _))⟩ =>
      some (ps.set pid ⟨parent, fds, .running (.other code)⟩)
  | _ => none

/-- The command has not been found. -/
def notFoundStep (pid : Nat) (ps : List (Proc Other)) : Option (List (Proc Other)) :=
  match ps[pid]? with
  | some ⟨parent, fds, .running (.program (.perform (.execvp _) next))⟩ =>
      some (ps.set pid (inShell parent fds (next ())))
  | _ => none

/-- A process that follows a null pointer is killed. -/
def crashStep (pid : Nat) (ps : List (Proc Other)) : Option (List (Proc Other)) :=
  match ps[pid]? with
  | some ⟨parent, fds, .running (.program (.perform .nullDereference _))⟩ =>
      some (ps.set pid ⟨parent, fds, .exited⟩)
  | _ => none

/-! ### What a step tells -/

variable {ps ps' : List (Proc Other)} {pid child pipe : Nat} {ok : Bool} {code : Other}

theorem callStep_eq_some (hstep : callStep ok pid ps = some ps') :
    ∃ parent fds c next, ∃ result : Reply c × Fds,
      ps[pid]? = some (inShell parent fds (.perform c next)) ∧ effect ok c fds = some result ∧
      ps' = ps.set pid (inShell parent result.2 (next result.1)) := by
  unfold callStep at hstep
  split at hstep
  · rename_i parent fds c next hprocess
    obtain ⟨result, hresult, rfl⟩ := Option.map_eq_some_iff.mp hstep
    exact ⟨parent, fds, c, next, result, hprocess, hresult, rfl⟩
  · exact nomatch hstep

theorem pipeStep_eq_some (hstep : pipeStep pipe pid ps = some ps') :
    ∃ parent fds next, ps[pid]? = some (inShell parent fds (.perform .pipe next)) ∧
      ps' = ps.set pid
        (inShell parent (openPipe pipe fds).2 (next (some (openPipe pipe fds).1))) := by
  unfold pipeStep at hstep
  split at hstep
  · rename_i parent fds next hprocess
    exact ⟨parent, fds, next, hprocess, (Option.some.inj hstep).symm⟩
  · exact nomatch hstep

theorem forkStep_eq_some (hstep : forkStep pid ps = some ps') :
    ∃ parent fds next, ps[pid]? = some (inShell parent fds (.perform .fork next)) ∧
      ps' = ps.set pid (inShell parent fds (next .parent)) ++
        [inShell (some pid) fds (next .child)] := by
  unfold forkStep at hstep
  split at hstep
  · rename_i parent fds next hprocess
    exact ⟨parent, fds, next, hprocess, (Option.some.inj hstep).symm⟩
  · exact nomatch hstep

theorem hasExited_iff : hasExited pid child ps = true ↔
    ∃ fds, ps[child]? = some ⟨some pid, fds, .exited⟩ := by
  unfold hasExited
  split
  · rename_i parent fds hchild
    rw [beq_iff_eq, hchild]
    constructor
    · rintro rfl
      exact ⟨fds, rfl⟩
    · rintro ⟨fds', heq⟩
      cases heq
      rfl
  · rename_i hchild
    refine iff_of_false Bool.false_ne_true ?_
    rintro ⟨fds, heq⟩
    exact hchild (some pid) fds heq

theorem waitStep_eq_some (hstep : waitStep child pid ps = some ps') :
    ∃ parent fds next fds', ps[pid]? = some (inShell parent fds (.perform .wait next)) ∧
      ps[child]? = some ⟨some pid, fds', .exited⟩ ∧
      ps' = (ps.set child ⟨some pid, fds', .reaped⟩).set pid (inShell parent fds (next ())) := by
  unfold waitStep at hstep
  split at hstep
  · rename_i parent fds next hprocess
    split at hstep
    · rename_i hexited
      obtain ⟨fds', hchild⟩ := hasExited_iff.mp hexited
      refine ⟨parent, fds, next, fds', hprocess, hchild, ?_⟩
      rw [← Option.some.inj hstep, List.modify_eq_set_getElem?]
      simp only [hchild]
      rfl
    · exact nomatch hstep
  · exact nomatch hstep

theorem childlessStep_eq_some (hstep : childlessStep pid ps = some ps') :
    ∃ parent fds next, ps[pid]? = some (inShell parent fds (.perform .wait next)) ∧
      (∀ process ∈ ps, process.parent = some pid → process.isReaped = true) ∧
      ps' = ps.set pid (inShell parent fds (next ())) := by
  unfold childlessStep at hstep
  split at hstep
  · rename_i parent fds next hprocess
    split at hstep
    · rename_i hall
      refine ⟨parent, fds, next, hprocess, fun process hmem hparent => ?_,
        (Option.some.inj hstep).symm⟩
      have hreaped := List.all_eq_true.mp hall process hmem
      simpa [hparent] using hreaped
    · exact nomatch hstep
  · exact nomatch hstep

theorem execvpStep_eq_some (hstep : execvpStep code pid ps = some ps') :
    ∃ parent fds argv next, ps[pid]? = some (inShell parent fds (.perform (.execvp argv) next)) ∧
      ps' = ps.set pid ⟨parent, fds, .running (.other code)⟩ := by
  unfold execvpStep at hstep
  split at hstep
  · rename_i parent fds argv next hprocess
    exact ⟨parent, fds, argv, next, hprocess, (Option.some.inj hstep).symm⟩
  · exact nomatch hstep

theorem notFoundStep_eq_some (hstep : notFoundStep pid ps = some ps') :
    ∃ parent fds argv next, ps[pid]? = some (inShell parent fds (.perform (.execvp argv) next)) ∧
      ps' = ps.set pid (inShell parent fds (next ())) := by
  unfold notFoundStep at hstep
  split at hstep
  · rename_i parent fds argv next hprocess
    exact ⟨parent, fds, argv, next, hprocess, (Option.some.inj hstep).symm⟩
  · exact nomatch hstep

theorem crashStep_eq_some (hstep : crashStep pid ps = some ps') :
    ∃ parent fds next, ps[pid]? = some (inShell parent fds (.perform .nullDereference next)) ∧
      ps' = ps.set pid ⟨parent, fds, .exited⟩ := by
  unfold crashStep at hstep
  split at hstep
  · rename_i parent fds next hprocess
    exact ⟨parent, fds, next, hprocess, (Option.some.inj hstep).symm⟩
  · exact nomatch hstep

end Acos.Shell
