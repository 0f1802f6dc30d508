import Acos.Lib.Interleaving
import Acos.Atomic.SpinLock

/-!
# The readers-writer lock

Each thread works through a list of sections. Its program counter names the next atomic instruction
of the operation it is in; a step of the system executes that instruction for one thread.
-/

namespace Acos.Atomic.Rw

open Transition Interleaving

structure RwLock where
  readersCount : Word
  readersLock : SpinLock
  writersLock : SpinLock
  deriving DecidableEq

def rwLockInit (lock : RwLock) : RwLock :=
  { readersCount := 0
    readersLock := spinLockInit lock.readersLock
    writersLock := spinLockInit lock.writersLock }

inductive Section where
  | read
  | write
  deriving DecidableEq

/-- The next instruction of a thread. -/
inductive Pc where
  /-- Between two sections. -/
  | outside
  /-- `RwLock_ReadLock`: the exchange on `writers_lock`. -/
  | readLockSpin
  /-- `RwLock_ReadLock`: the increment of `readers_count`. -/
  | readLockAdd
  /-- `RwLock_ReadLock`: the compare-and-swap on `writers_lock`. -/
  | readLockRelease
  /-- Inside a read section. -/
  | reading
  /-- `RwLock_ReadUnlock`: the exchange on `readers_lock`. -/
  | readUnlockSpin
  /-- `RwLock_ReadUnlock`: the decrement of `readers_count`. -/
  | readUnlockSub
  /-- `RwLock_ReadUnlock`: the compare-and-swap on `readers_lock`. -/
  | readUnlockRelease
  /-- `RwLock_WriteLock`: the exchange on `writers_lock`. -/
  | writeLockSpin
  /-- `RwLock_WriteLock`: the load of `readers_count` in the wait loop. -/
  | writeLockWait
  /-- Inside a write section. -/
  | writing
  /-- `RwLock_WriteUnlock`: the compare-and-swap on `writers_lock`. -/
  | writeUnlockRelease
  deriving DecidableEq

structure Thread where
  pc : Pc
  todo : List Section
  deriving DecidableEq

/-- One instruction of one thread. A thread that has worked through its list has none. -/
def next (thread : Thread) (lock : RwLock) : Option (Thread × RwLock) :=
  match thread.pc with
  | .outside =>
      match thread.todo with
      | [] => none
      | .read :: todo => some ({ pc := .readLockSpin, todo }, lock)
      | .write :: todo => some ({ pc := .writeLockSpin, todo }, lock)
  | .readLockSpin =>
      let turn := spinLockLock lock.writersLock
      some ({ thread with pc := if turn.2 then .readLockAdd else .readLockSpin },
        { lock with writersLock := turn.1 })
  | .readLockAdd =>
      some ({ thread with pc := .readLockRelease },
        { lock with readersCount := atomicAdd lock.readersCount 1 })
  | .readLockRelease =>
      some ({ thread with pc := .reading },
        { lock with writersLock := spinLockUnlock lock.writersLock })
  | .reading => some ({ thread with pc := .readUnlockSpin }, lock)
  | .readUnlockSpin =>
      let turn := spinLockLock lock.readersLock
      some ({ thread with pc := if turn.2 then .readUnlockSub else .readUnlockSpin },
        { lock with readersLock := turn.1 })
  | .readUnlockSub =>
      some ({ thread with pc := .readUnlockRelease },
        { lock with readersCount := atomicSub lock.readersCount 1 })
  | .readUnlockRelease =>
      some ({ thread with pc := .outside },
        { lock with readersLock := spinLockUnlock lock.readersLock })
  | .writeLockSpin =>
      let turn := spinLockLock lock.writersLock
      some ({ thread with pc := if turn.2 then .writeLockWait else .writeLockSpin },
        { lock with writersLock := turn.1 })
  | .writeLockWait =>
      some ({ thread with
          pc := if atomicLoad lock.readersCount != 0 then .writeLockWait else .writing }, lock)
  | .writing => some ({ thread with pc := .writeUnlockRelease }, lock)
  | .writeUnlockRelease =>
      some ({ thread with pc := .outside },
        { lock with writersLock := spinLockUnlock lock.writersLock })

structure State (ι : Type) where
  lock : RwLock
  threads : ι → Thread

variable {ι : Type} [DecidableEq ι]

/-- Thread `t` executes its next instruction. -/
def advance (t : ι) (state : State ι) : Option (State ι) :=
  (next (state.threads t) state.lock).map fun moved =>
    { lock := moved.2, threads := Function.update state.threads t moved.1 }

/-- The threads start outside any section, after `RwLock_Init` on an arbitrary memory. -/
def Initial (state : State ι) : Prop :=
  (∃ memory, state.lock = rwLockInit memory) ∧ ∀ t, (state.threads t).pc = .outside

def system (ι : Type) [DecidableEq ι] : System (State ι) ι := .ofFunction Initial advance

/-- `WriteLock` has returned and `WriteUnlock` has not started. -/
def Thread.InWriteSection (thread : Thread) : Prop := thread.pc = .writing

/-- `ReadLock` has returned and `ReadUnlock` has not started. -/
def Thread.InReadSection (thread : Thread) : Prop := thread.pc = .reading

/-- The increment of `ReadLock` is done and the decrement of `ReadUnlock` is not. -/
def Thread.counted (thread : Thread) : Bool :=
  match thread.pc with
  | .readLockRelease | .reading | .readUnlockSpin | .readUnlockSub => true
  | _ => false

def Thread.holdsWritersLock (thread : Thread) : Bool :=
  match thread.pc with
  | .readLockAdd | .readLockRelease | .writeLockWait | .writing | .writeUnlockRelease => true
  | _ => false

def Thread.holdsReadersLock (thread : Thread) : Bool :=
  match thread.pc with
  | .readUnlockSub | .readUnlockRelease => true
  | _ => false

end Acos.Atomic.Rw
