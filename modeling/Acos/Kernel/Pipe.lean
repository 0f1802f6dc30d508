import Acos.Lib.Monitor
import Acos.Lib.RingBuffer

/-!
# Pipes of the kernel

`pipewrite`, `piperead` and `pipeclose` of any number of processes on one pipe. The calls run under
the lock of the pipe and go to sleep while it is full or empty.
-/

namespace Acos.Kernel

open Transition Monitor RingBuffer

abbrev Byte := BitVec 8

abbrev PIPESIZE : Nat := 512

instance : NeZero PIPESIZE := ⟨by decide⟩

/-- `struct pipe` without its lock. -/
structure Pipe where
  ring : Ring Byte 32 PIPESIZE
  readopen : Bool
  writeopen : Bool

/-- The addresses that the processes sleep on. -/
inductive PipeChan where
  | nread
  | nwrite
  deriving DecidableEq

/-- Where a process is in the code of a pipe, with its local variables. `back` is outside, with the
value that the last call has returned and the bytes that it has left in the buffer of its caller.
`leave` is the release of the lock at the end of a call, and its flag tells the end of the pipe. -/
inductive PipeLoc where
  | back (ret : Int) (addr : List Byte)
  | leave (writable : Bool) (ret : Int) (addr : List Byte)
  | writeEnter (addr : List Byte)
  | write (addr : List Byte) (i : Nat)
  | writeFull (addr : List Byte) (i : Nat)
  | writeSleep (addr : List Byte) (i : Nat)
  | writeWake (addr : List Byte)
  | readEnter (n : Nat)
  | read (n : Nat)
  | readSleep (n : Nat)
  | copy (n : Nat) (addr : List Byte)
  | readWake (n : Nat) (addr : List Byte)
  | closeEnter (writable : Bool)
  | close (writable : Bool)
  | closeWake (writable : Bool)

def Pipe.full (p : Pipe) : Bool := p.ring.nwrite == p.ring.nread + PIPESIZE

def Pipe.empty (p : Pipe) : Bool := p.ring.nread == p.ring.nwrite

/-- One turn of the loops of `pipewrite`. -/
def pipewrite (addr : List Byte) (i : Nat) (killed : Bool) (p : Pipe) : Pipe × PipeLoc :=
  match addr[i]? with
  | none => (p, .writeWake addr)
  | some byte =>
      if p.full then
        if p.readopen = false ∨ killed = true then (p, .leave true (-1) [])
        else (p, .writeFull addr i)
      else ({ p with ring := p.ring.push byte }, .write addr (i + 1))

/-- One turn of the first loop of `piperead`. -/
def piperead (n : Nat) (killed : Bool) (p : Pipe) : Pipe × PipeLoc :=
  if p.empty ∧ p.writeopen then
    if killed then (p, .leave false (-1) []) else (p, .readSleep n)
  else (p, .copy n [])

/-- One turn of its second loop, in which `i` is the number of bytes in the buffer. -/
def pipecopy (n : Nat) (addr : List Byte) (p : Pipe) : Pipe × PipeLoc :=
  if addr.length < n ∧ p.empty = false then
    ({ p with ring := p.ring.pop }, .copy n (addr ++ [p.ring.data (Ring.slot p.ring.nread)]))
  else (p, .readWake n addr)

def pipeclose (writable : Bool) (p : Pipe) : Pipe × PipeLoc :=
  (if writable then { p with writeopen := false } else { p with readopen := false },
    .closeWake writable)

def pipeCode : PipeLoc → Op PipeLoc PipeChan Pipe
  | .back _ _ => .outside
  | .leave _ ret addr => .release (.back ret addr)
  | .writeEnter addr => .acquire (.write addr 0)
  | .write addr i => .compute (pipewrite addr i)
  | .writeFull addr i => .wakeup .nread (.writeSleep addr i)
  | .writeSleep addr i => .sleep .nwrite (.write addr i)
  | .writeWake addr => .wakeup .nread (.leave true addr.length [])
  | .readEnter n => .acquire (.read n)
  | .read n => .compute (piperead n)
  | .readSleep n => .sleep .nread (.read n)
  | .copy n addr => .compute fun _ => pipecopy n addr
  | .readWake _ addr => .wakeup .nwrite (.leave false addr.length addr)
  | .closeEnter writable => .acquire (.close writable)
  | .close writable => .compute fun _ => pipeclose writable
  | .closeWake writable => .wakeup (if writable then .nread else .nwrite) (.leave writable 0 [])

/-- The location is in a call of `pipewrite` or `piperead`. -/
def PipeLoc.uses (writable : Bool) : PipeLoc → Bool
  | .writeEnter _ | .write _ _ | .writeFull _ _ | .writeSleep _ _ | .writeWake _ => writable
  | .readEnter _ | .read _ | .readSleep _ | .copy _ _ | .readWake _ _ => !writable
  | _ => false

/-- The location is in a call of `pipeclose`. -/
def PipeLoc.closes (writable : Bool) : PipeLoc → Bool
  | .closeEnter w | .close w | .closeWake w => w == writable
  | _ => false

def Pipe.isOpen (writable : Bool) (p : Pipe) : Bool := if writable then p.writeopen else p.readopen

section System

variable {P : Type} [Fintype P]

/-- The files keep to the rules of a pipe: an end is used while it is open, and closed once, when
nobody uses it any more. -/
def pipeEnter (s : State P PipeLoc PipeChan Pipe) : PipeLoc → Bool
  | .writeEnter _ => s.data.isOpen true && decide (∀ u, (s.thread u).target.closes true = false)
  | .readEnter _ => s.data.isOpen false && decide (∀ u, (s.thread u).target.closes false = false)
  | .closeEnter w => s.data.isOpen w &&
      decide (∀ u, (s.thread u).target.uses w = false ∧ (s.thread u).target.closes w = false)
  | _ => false

/-- The pipe that `pipealloc` has made of a page, and the processes that use it. If `killable` is
true, a process may be killed at any time. -/
def pipeProgram (page : Fin PIPESIZE → Byte) (killable : Bool) :
    Program P PipeLoc PipeChan Pipe where
  code := pipeCode
  start _ := .back 0 []
  data := ⟨⟨page, 0, 0⟩, true, true⟩
  enter s _ := pipeEnter s
  killable := killable

/-- The lock of the pipe is held between `acquire` and `release`. -/
def PipeLoc.holds : PipeLoc → Bool
  | .back _ _ | .writeEnter _ | .readEnter _ | .closeEnter _ => false
  | _ => true

theorem pipewrite_holds (addr : List Byte) (i : Nat) (killed : Bool) (p : Pipe) :
    (pipewrite addr i killed p).2.holds = true := by
  unfold pipewrite
  cases addr[i]? with
  | none => rfl
  | some byte =>
      dsimp only
      split_ifs <;> rfl

theorem piperead_holds (n : Nat) (killed : Bool) (p : Pipe) :
    (piperead n killed p).2.holds = true := by
  unfold piperead
  split_ifs <;> rfl

theorem pipecopy_holds (n : Nat) (addr : List Byte) (p : Pipe) :
    (pipecopy n addr p).2.holds = true := by
  unfold pipecopy
  split_ifs <;> rfl

theorem pipe_locking (page : Fin PIPESIZE → Byte) (killable : Bool) :
    Locking (pipeProgram (P := P) page killable) PipeLoc.holds where
  start _ := rfl
  enter {_ _ l} henter := by
    cases l <;> first | rfl | cases henter
  outside {l} hop := by
    cases l <;> first | rfl | cases hop
  acquire {l _} hop := by
    cases l <;> cases hop <;> exact ⟨rfl, rfl⟩
  release {l _} hop := by
    cases l <;> cases hop
    exact ⟨rfl, rfl⟩
  compute {l _} hop := by
    cases l <;> cases hop
    · exact ⟨rfl, pipewrite_holds _ _⟩
    · exact ⟨rfl, piperead_holds _⟩
    · exact ⟨rfl, fun _ => pipecopy_holds _ _⟩
    · exact ⟨rfl, fun _ _ => rfl⟩
  wakeup {l _ _} hop := by
    cases l <;> cases hop <;> exact ⟨rfl, rfl⟩
  sleep {l _ _} hop := by
    cases l <;> cases hop <;> exact ⟨rfl, rfl⟩

end System

end Acos.Kernel
