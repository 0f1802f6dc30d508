import Acos.Shell.Calls

/-!
# The shell with pipelines

`Exec` first reads all tokens, collects the names of the redirections and looks for errors in six
flags and counters. A line without a pipe is then run as one process. For a pipeline the tokens are
read a second time, stage by stage, and every stage is forked and waited for before the next one.

The counters of type `size_t` never exceed the number of tokens and are natural numbers here. The
block of the output file is an `int`, and the conversions to and from it are those of the C types.
-/

namespace Acos.Shell.Pipe

open Program

/-- The variables of the first pass. `token_count` is the length of `argv`. -/
structure Scan where
  argv : List Text := []
  infileCount : Nat := 0
  outfileCount : Nat := 0
  infileBefore : Bool := false
  outfileBefore : Bool := false
  pipeBefore : Bool := false
  infileName : Option Text := none
  outfileName : Option Text := none
  outfileBlock : Int := -1
  blockCount : Nat := 0
deriving DecidableEq, Repr

namespace Scan

variable (scan : Scan)

/-- The message and the frees of an error of the first pass. -/
def fail : Prog Reply (Option Scan) := do
  doFreeExit (entries scan.argv) (some "Syntax error") scan.infileName scan.outfileName
  return none

def infile : Prog Reply (Option Scan) := do
  if ← syntaxError (entries scan.argv) scan.infileName scan.outfileName
      scan.infileBefore scan.outfileBefore then
    return none
  if scan.blockCount ≠ 0 then
    scan.fail
  else
    return some { scan with infileCount := scan.infileCount + 1, infileBefore := true }

def outfile : Prog Reply (Option Scan) := do
  if ← syntaxError (entries scan.argv) scan.infileName scan.outfileName
      scan.infileBefore scan.outfileBefore then
    return none
  return some { scan with
    outfileBlock := if scan.outfileBlock = -1 then toInt scan.blockCount else scan.outfileBlock
    outfileCount := scan.outfileCount + 1
    outfileBefore := true }

def pipe : Prog Reply (Option Scan) :=
  if scan.pipeBefore then
    scan.fail
  else
    return some { scan with pipeBefore := true, blockCount := scan.blockCount + 1 }

/-- A word has been copied. -/
def clear : Scan :=
  { scan with infileBefore := false, outfileBefore := false, pipeBefore := false }

def word (text : Text) : Prog Reply (Option Scan) := do
  if scan.infileBefore then
    freeName .infileName scan.infileName
    if ← sys (.malloc .infileName (text.length + 1)) then
      return some { scan.clear with infileName := some text }
    sys (.perror "malloc failed")
    doFreeExit (entries scan.argv) none none scan.outfileName
    return none
  else if scan.outfileBefore then
    freeName .outfileName scan.outfileName
    if ← sys (.malloc .outfileName (text.length + 1)) then
      return some { scan.clear with outfileName := some text }
    sys (.perror "malloc failed")
    doFreeExit (entries scan.argv) none scan.infileName none
    return none
  else
    if ← sys (.malloc (.arg scan.argv.length) (text.length + 1)) then
      return some { scan.clear with argv := scan.argv ++ [text] }
    sys (.perror "malloc failed")
    doFreeExit (entries scan.argv) none scan.infileName scan.outfileName
    return none

def token (t : Token) : Prog Reply (Option Scan) :=
  match t.type with
  | .infile => scan.infile
  | .outfile => scan.outfile
  | .pipe => scan.pipe
  | .word => scan.word t.text

/-- The test behind the first pass. -/
def Rejects : Prop :=
  (scan.outfileBlock ≠ -1 ∧ toSize scan.outfileBlock ≠ scan.blockCount) ∨
    (scan.infileBefore = true ∨ scan.outfileBefore = true) ∨
    (scan.infileCount > 1 ∨ scan.outfileCount > 1)

instance : Decidable scan.Rejects := inferInstanceAs (Decidable (_ ∨ _))

end Scan

/-- The first pass. It has no result if `Exec` has returned. -/
def firstPass : List Token → Scan → Prog Reply (Option Scan)
  | [], scan => return some scan
  | t :: ts, scan => do
      match ← scan.token t with
      | none => return none
      | some scan => firstPass ts scan

/-! ## One command -/

/-- The redirection of the output of a single command. The result tells whether `Exec` goes on. -/
def commandOutput (scan : Scan) (name : Text) : Prog Reply Bool := do
  let fd ← sys (.openWrite name)
  if fd = -1 then
    doFreeExit (entries scan.argv ++ [.null]) (some "I/O error") scan.infileName scan.outfileName
    return false
  if fd ≠ stdoutFileno then
    if ← sys (.dup2 fd stdoutFileno) then
      sys (.close fd)
      sys (.free .outfileName)
      return true
    sys (.close fd)
    doFreeExit (entries scan.argv ++ [.null]) (some "I/O error") scan.infileName scan.outfileName
    return false
  sys (.close fd)
  sys (.free .outfileName)
  return true

def commandInput (scan : Scan) (dupOut : Int) (name : Text) : Prog Reply Bool := do
  let fd ← sys (.openRead name)
  if fd = -1 then
    let _ ← sys (.dup2 dupOut stdoutFileno)
    doFreeExit (entries scan.argv ++ [.null]) (some "I/O error") scan.infileName none
    return false
  if fd ≠ stdinFileno then
    if ← sys (.dup2 fd stdinFileno) then
      sys (.close fd)
      sys (.free .infileName)
      return true
    sys (.close fd)
    doFreeExit (entries scan.argv ++ [.null]) (some "I/O error") scan.infileName none
    return false
  sys (.close fd)
  sys (.free .infileName)
  return true

/-- A redirection is made if there is a name for it. -/
def redirect (name : Option Text) (open' : Text → Prog Reply Bool) : Prog Reply Bool :=
  match name with
  | none => return true
  | some name => open' name

/-- The child of a single command. -/
def commandChild (scan : Scan) (dupOut : Int) : Prog Reply Unit := do
  if ← redirect scan.outfileName (commandOutput scan) then
    if ← redirect scan.infileName (commandInput scan dupOut) then
      sys (.execvp scan.argv)
      sys (.print "Command not found\n")
      doFree (entries scan.argv ++ [.null])

def command (scan : Scan) (dupOut : Int) : Prog Reply Unit := do
  match ← sys .fork with
  | .failed =>
      sys (.perror "fork failed")
      doFreeExit (entries scan.argv ++ [.null]) none scan.infileName scan.outfileName
  | .child => commandChild scan dupOut
  | .parent =>
      sys .wait
      doFreeExit (entries scan.argv ++ [.null]) none scan.infileName scan.outfileName

/-! ## A pipeline -/

/-- The variables of the loop over the stages. `token_count` is the length of `argv`. -/
structure Loop where
  argv : List Text
  cursor : List Token
  infileBefore : Bool
  outfileBefore : Bool
  prevPipeReadEnd : Int
deriving DecidableEq, Repr

/-- The second pass over the tokens of one stage. -/
def collect (scan : Scan) : List Token → Loop → Prog Reply (Option Loop)
  | [], loop => return some { loop with cursor := [] }
  | t :: ts, loop =>
      match t.type with
      | .pipe => return some { loop with cursor := t :: ts }
      | .infile => collect scan ts { loop with infileBefore := true }
      | .outfile => collect scan ts { loop with outfileBefore := true }
      | .word =>
          let loop' := { loop with infileBefore := false, outfileBefore := false }
          if loop.infileBefore || loop.outfileBefore then
            collect scan ts loop'
          else do
            if ← sys (.malloc (.arg loop.argv.length) (t.text.length + 1)) then
              collect scan ts { loop' with argv := loop.argv ++ [t.text] }
            else
              sys (.perror "malloc failed")
              doFreeExit (entries loop.argv) none scan.infileName scan.outfileName
              return none

/-- The descriptor is closed in this case. -/
def closeIf (condition : Prop) [Decidable condition] (fd : Int) : Prog Reply Unit :=
  if condition then sys (.close fd) else pure ()

/-- The input file of the first stage. The result tells whether the child goes on. -/
def stageInput (scan : Scan) (argv : List Text) (dupOut prevPipeReadEnd : Int) (name : Text) :
    Prog Reply Bool := do
  let fd ← sys (.openRead name)
  if fd = -1 then
    closeIf (prevPipeReadEnd ≠ -1) prevPipeReadEnd
    let _ ← sys (.dup2 dupOut stdoutFileno)
    doFreeExit (entries argv ++ [.null]) (some "I/O error") scan.infileName scan.outfileName
    return false
  if ← sys (.dup2 fd stdinFileno) then
    sys (.close fd)
    sys (.free .infileName)
    return true
  sys (.close fd)
  doFreeExit (entries argv ++ [.null]) (some "I/O error") scan.infileName scan.outfileName
  return false

/-- The output file of the last stage. -/
def stageOutput (scan : Scan) (argv : List Text) (prevPipeReadEnd : Int) (name : Text) :
    Prog Reply Bool := do
  let fd ← sys (.openWrite name)
  if fd = -1 then
    closeIf (prevPipeReadEnd ≠ -1) prevPipeReadEnd
    doFreeExit (entries argv ++ [.null]) (some "I/O error") none scan.outfileName
    return false
  if ← sys (.dup2 fd stdoutFileno) then
    sys (.close fd)
    sys (.free .outfileName)
    return true
  sys (.close fd)
  doFreeExit (entries argv ++ [.null]) (some "I/O error") none scan.outfileName
  return false

/-- The pipe from the stage before becomes the standard input. -/
def stageStdin (i : Nat) (prevPipeReadEnd : Int) : Prog Reply Unit :=
  if i > 0 then do
    let _ ← sys (.dup2 prevPipeReadEnd stdinFileno)
    sys (.close prevPipeReadEnd)
  else pure ()

/-- The pipe to the next stage becomes the standard output. -/
def stageStdout (scan : Scan) (i : Nat) (pipefd : Int × Int) : Prog Reply Unit :=
  if i < scan.blockCount then do
    sys (.close pipefd.1)
    let _ ← sys (.dup2 pipefd.2 stdoutFileno)
    sys (.close pipefd.2)
  else pure ()

/-- The end of a stage whose command was not found. A null pointer may be freed. -/
def stageNotFound (scan : Scan) (i : Nat) (argv : List Text) : Prog Reply Unit := do
  sys (.print "Command not found\n")
  if i = 0 then
    doFreeExit (entries argv ++ [.null]) none scan.infileName scan.outfileName
  else if i = scan.blockCount then
    doFree (entries argv ++ [.null])
  else
    doFree (entries argv ++ [.null])
    sys (.free (if scan.outfileName.isSome then .outfileName else .null))

/-- The child of the stage with index `i`. -/
def stageChild (scan : Scan) (dupOut : Int) (i : Nat) (argv : List Text) (prevPipeReadEnd : Int)
    (pipefd : Int × Int) : Prog Reply Unit := do
  stageStdin i prevPipeReadEnd
  stageStdout scan i pipefd
  if ← redirect (if i = 0 then scan.infileName else none)
      (stageInput scan argv dupOut prevPipeReadEnd) then
    if ← redirect (if i = scan.blockCount then scan.outfileName else none)
        (stageOutput scan argv prevPipeReadEnd) then
      sys (.execvp argv)
      stageNotFound scan i argv

/-- The tokens of a stage start behind the pipe. -/
def skipPipe : List Token → Prog Reply (List Token)
  | [] => do
      let never ← sys .nullDereference
      nomatch never
  | t :: ts => return if t.type = .pipe then ts else t :: ts

/-- The loop over the stages, with the number of those that are left. -/
def stages (scan : Scan) (wordsCount : Nat) (dupOut : Int) : Nat → Nat → Loop → Prog Reply Unit
  | 0, _, loop =>
      doFreeExit (entries loop.argv) none scan.infileName scan.outfileName
  | left + 1, i, loop => do
      match ← sys .pipe with
      | none =>
          sys (.perror "pipe failed")
          -- only the array of the first pass has a null pointer behind its arguments
          doFreeExit (entries loop.argv ++ [if i = 0 then .null else .uninitialized]) none
            scan.infileName scan.outfileName
      | some pipefd =>
          doFree (entries loop.argv)
          if ← sys (.malloc .argv ((wordsCount + 1) * 8)) then
            let cursor ← skipPipe loop.cursor
            match ← collect scan cursor { loop with argv := [], cursor := cursor } with
            | none => return
            | some loop =>
                match ← sys .fork with
                | .failed =>
                    sys (.perror "fork failed")
                    doFreeExit (entries loop.argv) none scan.infileName scan.outfileName
                | .child => stageChild scan dupOut i loop.argv loop.prevPipeReadEnd pipefd
                | .parent =>
                    closeIf (i > 0) loop.prevPipeReadEnd
                    sys (.close pipefd.2)
                    sys .wait
                    stages scan wordsCount dupOut left (i + 1)
                      { loop with prevPipeReadEnd := pipefd.1 }
          else
            sys (.perror "malloc failed")
            freeName .infileName scan.infileName
            freeName .outfileName scan.outfileName

/-! ## `Exec` -/

/-- `Exec` behind the first pass. -/
def launch (tokens : List Token) (dupOut : Int) (scan : Scan) : Prog Reply Unit :=
  if scan.Rejects then
    doFreeExit (entries scan.argv) (some "Syntax error") scan.infileName scan.outfileName
  else if scan.blockCount = 0 then
    command scan dupOut
  else
    stages scan tokens.length dupOut (scan.blockCount + 1) 0
      { argv := scan.argv, cursor := tokens, infileBefore := scan.infileBefore,
        outfileBefore := scan.outfileBefore, prevPipeReadEnd := -1 }

def exec (tokenizer : Tokenizer) : Prog Reply Unit := do
  let wordsCount := tokenizer.tokens.length
  if wordsCount = 0 then
    return
  let dupOut ← sys (.dup stdoutFileno)
  if ← sys (.malloc .argv ((wordsCount + 1) * 8)) then
    match ← firstPass tokenizer.tokens {} with
    | none => return
    | some scan => launch tokenizer.tokens dupOut scan
  else
    sys (.perror "malloc failed")

end Acos.Shell.Pipe
