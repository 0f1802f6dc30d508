import Acos.Lib.Interleaving
import Acos.Atomic.SpinLock

/-!
# The sequence lock

Threads run any number of write and read sections over shared variables. The actions of a thread say
what its own code chooses (which section to start, which variable to access, when to leave); `go` is
the next atomic instruction of the lock operation it is in.
-/

namespace Acos.Atomic.Seq

open Transition Interleaving

structure SeqLock where
  lock : SpinLock
  count : Word

def seqLockInit (l : SeqLock) : SeqLock :=
  { lock := spinLockInit l.lock, count := 0 }

def seqLockReadLock (l : SeqLock) : Word := atomicLoad l.count

/-- The remainder is that of `int64_t`, so an odd negative counter gives `-1`. -/
def seqLockReadUnlock (l : SeqLock) (value : Word) : Bool :=
  let temp := atomicLoad l.count
  temp == value && temp.toInt.tmod 2 == 0

inductive Pc (Var Val : Type) where
  | outside
  /-- `SeqLock_WriteLock`: the exchange on the spinlock. -/
  | writeLockSpin
  /-- `SeqLock_WriteLock`: the increment of `count`. -/
  | writeLockAdd
  /-- Inside a write section. -/
  | writing
  /-- `SeqLock_WriteUnlock`: the increment of `count`. -/
  | writeUnlockAdd
  /-- `SeqLock_WriteUnlock`: the compare-and-swap on the spinlock. -/
  | writeUnlockRelease
  /-- `SeqLock_ReadLock`: the load of `count`. -/
  | readLockLoad
  /-- Inside a read section, with the loaded counter and the values read so far. -/
  | reading (s : Word) (values : List (Var × Val))
  /-- `SeqLock_ReadUnlock`: the load of `count`. -/
  | readUnlockLoad (s : Word) (values : List (Var × Val))

inductive Action (Var Val : Type) where
  | startWrite
  | startRead
  | write (x : Var) (value : Val)
  | read (x : Var)
  | leave
  | go

structure Shared (Var Val : Type) where
  lock : SeqLock
  memory : Var → Val

variable {ι Var Val : Type} [DecidableEq Var]

/-- One atomic step of one thread. -/
def next (action : Action Var Val) (pc : Pc Var Val) (shared : Shared Var Val) :
    Option (Pc Var Val × Shared Var Val) :=
  match action, pc with
  | .startWrite, .outside => some (.writeLockSpin, shared)
  | .startRead, .outside => some (.readLockLoad, shared)
  | .go, .writeLockSpin =>
      let turn := spinLockLock shared.lock.lock
      some (if turn.2 then .writeLockAdd else .writeLockSpin,
        { shared with lock := { shared.lock with lock := turn.1 } })
  | .go, .writeLockAdd =>
      some (.writing,
        { shared with lock := { shared.lock with count := atomicAdd shared.lock.count 1 } })
  | .write x value, .writing =>
      some (.writing, { shared with memory := Function.update shared.memory x value })
  | .read _, .writing => some (.writing, shared)
  | .leave, .writing => some (.writeUnlockAdd, shared)
  | .go, .writeUnlockAdd =>
      some (.writeUnlockRelease,
        { shared with lock := { shared.lock with count := atomicAdd shared.lock.count 1 } })
  | .go, .writeUnlockRelease =>
      some (.outside,
        { shared with lock := { shared.lock with lock := spinLockUnlock shared.lock.lock } })
  | .go, .readLockLoad => some (.reading (seqLockReadLock shared.lock) [], shared)
  | .read x, .reading s values => some (.reading s (values ++ [(x, shared.memory x)]), shared)
  | .leave, .reading s values => some (.readUnlockLoad s values, shared)
  | .go, .readUnlockLoad _ _ => some (.outside, shared)
  | _, _ => none

structure State (ι Var Val : Type) where
  shared : Shared Var Val
  threads : ι → Pc Var Val

variable [DecidableEq ι]

def advance (label : ι × Action Var Val) (state : State ι Var Val) :
    Option (State ι Var Val) :=
  (next label.2 (state.threads label.1) state.shared).map fun moved =>
    { shared := moved.2, threads := Function.update state.threads label.1 moved.1 }

/-- `SeqLock_Init` on an arbitrary memory, with every thread outside any section. -/
def Initial (state : State ι Var Val) : Prop :=
  (∃ memory, state.shared.lock = seqLockInit memory) ∧ ∀ t, state.threads t = .outside

def system (ι Var Val : Type) [DecidableEq Var] [DecidableEq ι] :
    System (State ι Var Val) (ι × Action Var Val) := .ofFunction Initial advance

/-- Between the two increments of a write section. -/
def Pc.betweenIncrements : Pc Var Val → Bool
  | .writing | .writeUnlockAdd => true
  | _ => false

def Pc.holdsLock : Pc Var Val → Bool
  | .writeLockAdd | .writing | .writeUnlockAdd | .writeUnlockRelease => true
  | _ => false

end Acos.Atomic.Seq
