import Mathlib.Algebra.Ring.Int.Defs
import Mathlib.Algebra.Ring.Nat
import Acos.Lib.Program

/-!
# The calls of the shells

The tokens a shell works on, the calls it makes to the system and to the C library, and the helper
functions that all shells have in common. A token carries its `len` bytes, so that copying it out
of the line is copying this text. The memory a shell allocates is named by what it holds.
-/

namespace Acos.Shell

open Program

abbrev Text := List UInt8

inductive TokenType where
  | word
  | infile
  | outfile
  | pipe
deriving DecidableEq, Repr

structure Token where
  text : Text
  type : TokenType
deriving DecidableEq, Repr

/-- A list of `token_count` tokens. Each token takes 32 bytes of memory, so that neither the count
nor the size of an array of pointers for the tokens overflows a `size_t`. -/
structure Tokenizer where
  tokens : List Token
  length_lt : tokens.length < 2 ^ 59

/-- What a pointer of the shell points at: the array of the arguments, one of the arguments, a file
name, or nothing. The entry behind the arguments is not initialized before it is set to null. -/
inductive Block where
  | argv
  | arg (index : Nat)
  | infileName
  | outfileName
  | null
  | uninitialized
deriving DecidableEq, Repr

/-- The three returns of `fork`. -/
inductive Fork where
  | failed
  | child
  | parent
deriving DecidableEq, Repr

/-- `openWrite` opens with `O_WRONLY | O_CREAT | O_TRUNC` and mode `0644`, and `nullDereference`
is the end of a process that follows a null pointer. -/
inductive Call where
  | dup (fd : Int)
  | dup2 (oldfd newfd : Int)
  | close (fd : Int)
  | pipe
  | fork
  | wait
  | openRead (name : Text)
  | openWrite (name : Text)
  | execvp (argv : List Text)
  | malloc (block : Block) (size : Nat)
  | free (block : Block)
  | print (text : String)
  | perror (text : String)
  | nullDereference
deriving DecidableEq, Repr

/-- The descriptors are `-1` on failure, the booleans tell whether the call succeeded, and `execvp`
returns only if it has failed. -/
abbrev Reply : Call → Type
  | .dup _ => Int
  | .dup2 _ _ => Bool
  | .close _ => Unit
  | .pipe => Option (Int × Int)
  | .fork => Fork
  | .wait => Unit
  | .openRead _ => Int
  | .openWrite _ => Int
  | .execvp _ => Unit
  | .malloc _ _ => Bool
  | .free _ => Unit
  | .print _ => Unit
  | .perror _ => Unit
  | .nullDereference => Empty

/-- One call. -/
abbrev sys (c : Call) : Prog Reply (Reply c) := call c

def stdinFileno : Int := 0

def stdoutFileno : Int := 1

/-- The conversion of a `size_t` to an `int`. -/
def toInt (n : Nat) : Int := Int.bmod n (2 ^ 32)

/-- The conversion of an `int` to a `size_t`. -/
def toSize (z : Int) : Nat := (z % 2 ^ 64).toNat

/-- The loop of `do_free`. -/
def freeEntries : List Block → Prog Reply Unit
  | [] => pure ()
  | block :: blocks => do
      sys (.free block)
      freeEntries blocks

/-- `do_free`, for the entries of the array it goes through. -/
def doFree (entries : List Block) : Prog Reply Unit := do
  freeEntries entries
  sys (.free .argv)

/-- The entries of an array that hold arguments. -/
def entries (argv : List Text) : List Block := (List.range argv.length).map .arg

/-- A file name is freed if there is one. -/
def freeName (block : Block) (name : Option Text) : Prog Reply Unit :=
  if name.isSome then sys (.free block) else pure ()

def doFreeExit (entries : List Block) (errMsg : Option String)
    (infileName outfileName : Option Text) : Prog Reply Unit := do
  match errMsg with
  | some msg => sys (.print (msg ++ "\n"))
  | none => pure ()
  doFree entries
  freeName .infileName infileName
  freeName .outfileName outfileName

def syntaxError (entries : List Block) (infileName outfileName : Option Text)
    (infileBefore outfileBefore : Bool) : Prog Reply Bool := do
  if infileBefore || outfileBefore then
    doFreeExit entries (some "Syntax error") infileName outfileName
    return true
  return false

/-! ## Kinds of calls -/

/-- Memory management and messages. -/
def Call.Local : Call → Prop
  | .malloc _ _ | .free _ | .print _ | .perror _ => True
  | _ => False

/-- The call starts a process or opens a file. -/
def Call.Launches : Call → Prop
  | .fork | .openRead _ | .openWrite _ => True
  | _ => False

theorem Call.Local.not_launches {c : Call} (hlocal : c.Local) : ¬ c.Launches := by
  cases c <;> simp_all [Call.Local, Call.Launches]

section

variable {P : Call → Prop} (hfree : ∀ block, P (.free block))

include hfree

theorem freeEntries_only (entries : List Block) : (freeEntries entries).Only P := by
  induction entries with
  | nil => trivial
  | cons block blocks ih => exact ⟨hfree block, fun _ => ih⟩

theorem doFree_only (entries : List Block) : (doFree entries).Only P :=
  (freeEntries_only hfree entries).bind fun _ => .call (hfree .argv)

theorem freeName_only (block : Block) (name : Option Text) : (freeName block name).Only P := by
  unfold freeName
  split
  · exact .call (hfree block)
  · trivial

theorem doFreeExit_only (entries : List Block) (errMsg : Option String)
    (infileName outfileName : Option Text) (hprint : ∀ msg ∈ errMsg, P (.print (msg ++ "\n"))) :
    (doFreeExit entries errMsg infileName outfileName).Only P := by
  have hrest := (doFree_only hfree entries).bind fun _ =>
    (freeName_only hfree .infileName infileName).bind fun _ =>
      freeName_only hfree .outfileName outfileName
  unfold doFreeExit
  cases errMsg with
  | none => exact hrest
  | some msg => exact ⟨hprint msg rfl, fun _ => hrest⟩

/-- Without a message, only memory is freed. -/
theorem doFreeExit_none_only (entries : List Block) (infileName outfileName : Option Text) :
    (doFreeExit entries none infileName outfileName).Only P :=
  doFreeExit_only hfree entries none infileName outfileName
    fun msg hmsg => absurd hmsg (Option.not_mem_none msg)

end

/-- An environment in which memory is never short and messages are written. -/
structure Allocates (env : Env Reply) : Prop where
  malloc : ∀ past block size, env past (.malloc block size) = some true
  free : ∀ past block, env past (.free block) = some ()
  print : ∀ past text, env past (.print text) = some ()
  perror : ∀ past text, env past (.perror text) = some ()

/-- There a program that only manages memory and writes messages comes to its end. -/
theorem Allocates.returns {env : Env Reply} (henv : Allocates env) {α : Type} {p : Prog Reply α}
    (hp : p.Only Call.Local) (past : List (Event Reply)) :
    ∃ events value, Returns env past p events value := by
  induction p generalizing past with
  | pure value => exact ⟨[], value, .pure env past value⟩
  | perform c next ih =>
      obtain ⟨hlocal, hnext⟩ := hp
      obtain ⟨reply, hreply⟩ : ∃ reply, env past c = some reply := by
        cases c with
        | malloc block size => exact ⟨_, henv.malloc past block size⟩
        | free block => exact ⟨_, henv.free past block⟩
        | print text => exact ⟨_, henv.print past text⟩
        | perror text => exact ⟨_, henv.perror past text⟩
        | _ => exact hlocal.elim
      obtain ⟨events, value, hreturns⟩ := ih reply (hnext reply) (past ++ [⟨c, reply⟩])
      exact ⟨_, value, .perform hreply hreturns⟩

end Acos.Shell
