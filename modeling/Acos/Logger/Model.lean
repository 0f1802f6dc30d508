import Acos.Lib.CString
import Acos.Lib.FileSystem
import Mathlib.Data.Nat.Count

/-!
# The logger

The loop of `logger` with the rotation it makes when `SIGHUP` has set the flag, one step for each
library call or test, so that a signal can arrive between any two of them.
-/

namespace Acos.Logger

open CString FileSystem

abbrev Name := List Byte

abbrev Dir := Fs Name Byte

/-- `FILE_MAX_NAME`. -/
abbrev fileMaxName : Nat := 256

/-- `BUFFER_SIZE`. -/
abbrev bufferSize : Nat := 1024

/-- `INT_MAX`. -/
abbrev intMax : Nat := 2 ^ 31 - 1

/-- The log file: a plain name, short enough for its numbers not to be cut off. -/
structure LogName where
  bytes : Name
  no_slash : 47 ∉ bytes
  length_le : bytes.length ≤ 240

/-- The name of the `i`-th rotated log as `snprintf` writes it. -/
def numbered (base : Name) (i : Nat) : Name := snprintf fileMaxName (base ++ 46 :: decimal i)

/-- What `readdir` goes through: the entries of the directory with `.` and `..`. -/
def entries (fs : Dir) : Multiset Name := fs.dir.keys.val + {[46], [46, 46]}

/-! ### Rotation -/

/-- One round of the scan for the highest number. -/
def scanEntry (base : Name) (mxIdx : Int) (name : Name) : Int :=
  if name.take base.length ≠ base ∨ name.getD base.length 0 ≠ 46 then mxIdx
  else
    let num := atoi (name.drop (base.length + 1))
    if 0 < num ∧ num < intMax ∧ num > mxIdx then num else mxIdx

def scan (base : Name) (names : List Name) : Int := names.foldl (scanEntry base) 0

/-- One round of the renaming loop. -/
def shift (base : Name) (i : Nat) (fs : Dir) : Dir :=
  fs.rename (numbered base i) (numbered base (i + 1))

/-- The last renaming of `swap_logs`. -/
def shiftBase (base : Name) (fs : Dir) : Dir := fs.rename base (numbered base 1)

/-! ### The loop -/

/-- At most `room` bytes, up to and with the first newline. -/
def takeLine : Nat → List Byte → List Byte × List Byte
  | 0, input => ([], input)
  | _ + 1, [] => ([], [])
  | room + 1, c :: input =>
      if c = 10 then ([c], input)
      else
        let rest := takeLine room input
        (c :: rest.1, rest.2)

def fgets (size : Nat) (input : List Byte) : Option (List Byte × List Byte) :=
  if input = [] then none else some (takeLine (size - 1) input)

inductive Pc where
  | fgets
  | testRotate
  | clearRotate
  | close
  | scan
  | rename (i : Nat)
  | renameBase
  | reopen
  | testFd
  | open
  | write
  | done
  | failed (message : String)
  deriving DecidableEq

structure State where
  pc : Pc
  input : List Byte
  buffer : List Byte
  rotate : Bool
  loggerFd : Option File
  fs : Dir

/-- What the program meets at each of its steps: the signals that arrive before it, the order of the
directory and the outcomes of the calls. -/
structure Env where
  hups : Nat → Nat
  order : Nat → Multiset Name → List Name
  order_coe : ∀ n names, (order n names : Multiset Name) = names
  opendir : Nat → Bool
  opens : Nat → Bool
  write : Nat → Option Nat

/-- The handler of `SIGHUP`. -/
def sched (s : State) : State := { s with rotate := true }

/-- The `n`-th step of the program. -/
def step (env : Env) (base : Name) (n : Nat) (s : State) : State :=
  match s.pc with
  | .fgets =>
      match Logger.fgets bufferSize s.input with
      | none => { s with pc := .done }
      | some (buffer, input) => { s with pc := .testRotate, buffer, input }
  | .testRotate => if s.rotate then { s with pc := .clearRotate } else { s with pc := .testFd }
  | .clearRotate => { s with rotate := false, pc := .close }
  -- the descriptor is closed if there is one; `logger_fd` keeps its value
  | .close => { s with pc := .scan }
  | .scan =>
      if env.opendir n then
        let mxIdx := (Logger.scan base (env.order n (entries s.fs))).toNat
        if 1 ≤ mxIdx then { s with pc := .rename mxIdx } else { s with pc := .renameBase }
      else { s with pc := .failed "Error opendir" }
  | .rename i =>
      let fs := shift base i s.fs
      if 1 ≤ i - 1 then { s with fs, pc := .rename (i - 1) } else { s with fs, pc := .renameBase }
  | .renameBase => { s with fs := shiftBase base s.fs, pc := .reopen }
  | .reopen =>
      if env.opens n then
        let opened := s.fs.openCreate base
        { s with loggerFd := some opened.1, fs := opened.2, pc := .testFd }
      else { s with pc := .failed "Failed to open new logfile after rotation" }
  | .testFd => if s.loggerFd = none then { s with pc := .open } else { s with pc := .write }
  | .open =>
      if env.opens n then
        let opened := s.fs.openCreate base
        { s with loggerFd := some opened.1, fs := opened.2, pc := .write }
      else { s with pc := .failed "Failed to open logfile" }
  | .write =>
      match s.loggerFd, env.write n with
      | some file, some count =>
          let text := s.buffer.takeWhile (· ≠ 0)
          let written := s.fs.write file (text.take count)
          { s with loggerFd := some written.1, fs := written.2, pc := .fgets }
      | _, _ => { s with pc := .failed "Failed to write to logfile" }
  | .done => s
  | .failed _ => s

/-- The state after `n` steps. -/
def trace (env : Env) (base : Name) (start : State) : Nat → State
  | 0 => start
  | n + 1 => step env base n (sched^[env.hups n] (trace env base start n))

/-- `logger` is called on this input in this directory. -/
def initial (input : List Byte) (fs : Dir) : State :=
  { pc := .fgets, input, buffer := [], rotate := false, loggerFd := none, fs }

/-- The rotations made in the first `n` steps. -/
def rotations (env : Env) (base : Name) (start : State) (n : Nat) : Nat :=
  Nat.count (fun k => (trace env base start k).pc = .renameBase) n

/-- Those of them that found a log file. -/
def foundRotations (env : Env) (base : Name) (start : State) (n : Nat) : Nat :=
  Nat.count (fun k => (trace env base start k).pc = .renameBase
    ∧ ((trace env base start k).fs.inode base).isSome) n

/-- The rotated logs from the oldest on, and the current one. -/
def joined (fs : Dir) (base : Name) (m : Nat) : List Byte :=
  ((List.range m).reverse.flatMap fun k => fs.read (numbered base (k + 1))) ++ fs.read base

end Acos.Logger
