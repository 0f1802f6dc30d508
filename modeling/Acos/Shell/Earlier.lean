import Acos.Shell.TokenizerInit

/-!
# The two earlier shells

The first shell runs one command, and the second one adds redirections. Both fork before they look
at the tokens, so that everything but the `wait` is done by the child.
-/

namespace Acos.Shell

open Program

/-! ## The shell without redirections -/

namespace Base

structure Tokenizer where
  tokens : List Text
  length_lt : tokens.length < 2 ^ 59

/-- The loop over the tokens behind the first `argv.length` ones. There is no result if `Exec` has
returned. -/
def copyWords (argv : List Text) : List Text → Prog Reply (Option (List Text))
  | [] => return some argv
  | text :: texts => do
      if ← sys (.malloc (.arg argv.length) (text.length + 1)) then
        copyWords (argv ++ [text]) texts
      else
        sys (.perror "malloc failed")
        freeEntries (entries argv)
        sys (.free .argv)
        return none

def child (tokens : List Text) : Prog Reply Unit := do
  let tokenCount := tokens.length
  if tokenCount = 0 then
    return
  if ← sys (.malloc .argv ((tokenCount + 1) * 8)) then
    match ← copyWords [] tokens with
    | none => return
    | some argv =>
        sys (.execvp argv)
        sys (.print "Command not found\n")
        freeEntries (entries argv)
        sys (.free .argv)
  else
    sys (.perror "malloc failed")

def exec (tokenizer : Tokenizer) : Prog Reply Unit := do
  match ← sys .fork with
  | .failed => sys (.perror "fork failed")
  | .child => child tokenizer.tokens
  | .parent => sys .wait

end Base

/-! ## The shell with redirections -/

namespace Io

structure Tokenizer where
  tokens : List Token
  length_lt : tokens.length < 2 ^ 59

/-- The variables of the pass over the tokens. `token_count` is the length of `argv`. -/
structure Scan where
  argv : List Text := []
  infileCount : Nat := 0
  outfileCount : Nat := 0
  infileBefore : Bool := false
  outfileBefore : Bool := false
  infileName : Option Text := none
  outfileName : Option Text := none
deriving DecidableEq, Repr

namespace Scan

variable (scan : Scan)

def infile : Prog Reply (Option Scan) := do
  if ← syntaxError (entries scan.argv) scan.infileName scan.outfileName
      scan.infileBefore scan.outfileBefore then
    return none
  return some { scan with infileCount := scan.infileCount + 1, infileBefore := true }

def outfile : Prog Reply (Option Scan) := do
  if ← syntaxError (entries scan.argv) scan.infileName scan.outfileName
      scan.infileBefore scan.outfileBefore then
    return none
  return some { scan with outfileCount := scan.outfileCount + 1, outfileBefore := true }

/-- A word has been copied. -/
def clear : Scan := { scan with infileBefore := false, outfileBefore := false }

def word (text : Text) : Prog Reply (Option Scan) := do
  if scan.infileBefore then
    freeName .infileName scan.infileName
    if ← sys (.malloc .infileName (text.length + 1)) then
      return some { scan.clear with infileName := some text }
    sys (.perror "malloc failed")
    doFreeExit (entries scan.argv) none none scan.outfileName
    return none
  else if scan.outfileBefore then
    freeName .outfileName scan.outfileName
    if ← sys (.malloc .outfileName (text.length + 1)) then
      return some { scan.clear with outfileName := some text }
    sys (.perror "malloc failed")
    doFreeExit (entries scan.argv) none scan.infileName none
    return none
  else
    if ← sys (.malloc (.arg scan.argv.length) (text.length + 1)) then
      return some { scan.clear with argv := scan.argv ++ [text] }
    sys (.perror "malloc failed")
    doFreeExit (entries scan.argv) none scan.infileName scan.outfileName
    return none

def token (t : Token) : Prog Reply (Option Scan) :=
  match t.type with
  | .infile => scan.infile
  | .outfile => scan.outfile
  | .word => scan.word t.text

end Scan

/-- The pass over the tokens. It has no result if `Exec` has returned. -/
def firstPass : List Token → Scan → Prog Reply (Option Scan)
  | [], scan => return some scan
  | t :: ts, scan => do
      match ← scan.token t with
      | none => return none
      | some scan => firstPass ts scan

/-- The redirection of the output. The result tells whether `Exec` goes on. -/
def commandOutput (scan : Scan) (name : Text) : Prog Reply Bool := do
  let fd ← sys (.openWrite name)
  if fd = -1 then
    doFreeExit (entries scan.argv ++ [.null]) (some "I/O error") scan.infileName scan.outfileName
    return false
  if fd ≠ stdoutFileno then
    if ← sys (.dup2 fd stdoutFileno) then
      sys (.close fd)
      sys (.free .outfileName)
      return true
    sys (.close fd)
    doFreeExit (entries scan.argv ++ [.null]) (some "I/O error") scan.infileName scan.outfileName
    return false
  sys (.close fd)
  sys (.free .outfileName)
  return true

def commandInput (scan : Scan) (dupOut : Int) (name : Text) : Prog Reply Bool := do
  let fd ← sys (.openRead name)
  if fd = -1 then
    let _ ← sys (.dup2 dupOut stdoutFileno)
    doFreeExit (entries scan.argv ++ [.null]) (some "I/O error") scan.infileName none
    return false
  if fd ≠ stdinFileno then
    if ← sys (.dup2 fd stdinFileno) then
      sys (.close fd)
      sys (.free .infileName)
      return true
    sys (.close fd)
    doFreeExit (entries scan.argv ++ [.null]) (some "I/O error") scan.infileName none
    return false
  sys (.close fd)
  sys (.free .infileName)
  return true

/-- A redirection is made if there is a name for it. -/
def redirect (name : Option Text) (open' : Text → Prog Reply Bool) : Prog Reply Bool :=
  match name with
  | none => return true
  | some name => open' name

/-- `Exec` behind the pass over the tokens. Only the second test comes after the null pointer behind
the arguments has been set. -/
def launch (dupOut : Int) (scan : Scan) : Prog Reply Unit := do
  if scan.infileBefore || scan.outfileBefore then
    doFreeExit (entries scan.argv) (some "Syntax error") scan.infileName scan.outfileName
  else if scan.infileCount > 1 ∨ scan.outfileCount > 1 then
    doFreeExit (entries scan.argv ++ [.null]) (some "Syntax error") scan.infileName
      scan.outfileName
  else if ← redirect scan.outfileName (commandOutput scan) then
    if ← redirect scan.infileName (commandInput scan dupOut) then
      sys (.execvp scan.argv)
      sys (.print "Command not found\n")
      doFree (entries scan.argv ++ [.null])

def child (tokens : List Token) : Prog Reply Unit := do
  let wordsCount := tokens.length
  if wordsCount = 0 then
    return
  let dupOut ← sys (.dup stdoutFileno)
  if ← sys (.malloc .argv ((wordsCount + 1) * 8)) then
    match ← firstPass tokens {} with
    | none => return
    | some scan => launch dupOut scan
  else
    sys (.perror "malloc failed")

def exec (tokenizer : Tokenizer) : Prog Reply Unit := do
  match ← sys .fork with
  | .failed => sys (.perror "fork failed")
  | .child => child tokenizer.tokens
  | .parent => sys .wait

end Io

end Acos.Shell
