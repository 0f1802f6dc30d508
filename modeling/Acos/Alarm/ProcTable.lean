import Acos.Lib.Transition
import Mathlib.Data.Fintype.Basic
import Mathlib.Data.List.FinRange

/-!
# Processes and their pages

The page allocator, the process table and the three system calls that move pages between them. A
page is named by its address. Of `struct proc` the fields are kept that these functions read or that
hold pages.
-/

namespace Acos.Alarm

open Transition

abbrev Page := Nat

/-- `kfree` puts the page at the head of the free list. -/
def kfree (page : Page) (freelist : List Page) : List Page := page :: freelist

/-- `kalloc` takes the head of the free list. It may also be told to fail, as it does when another
part of the kernel has emptied the list. -/
def kalloc (fails : Bool) (freelist : List Page) : Option Page × List Page :=
  if fails then (none, freelist)
  else match freelist with
    | [] => (none, [])
    | page :: rest => (some page, rest)

/-- `copyuvm` and `freevm`, of which only the traffic of pages matters: a page table is the list of
the pages it is made of and maps. `copyuvm` takes its pages from the free list or, when an
allocation fails, returns with what it had taken put back. -/
structure PageTables where
  copyuvm : (fails : Nat → Bool) → (pgdir freelist : List Page) → Option (List Page) × List Page
  freevm : (pgdir freelist : List Page) → List Page
  copyuvm_perm : ∀ fails pgdir freelist,
    (((copyuvm fails pgdir freelist).1.getD []) ++ (copyuvm fails pgdir freelist).2).Perm freelist
  freevm_perm : ∀ pgdir freelist, (freevm pgdir freelist).Perm (pgdir ++ freelist)

inductive ProcState where
  | unused
  | embryo
  | sleeping
  | runnable
  | running
  | zombie
  deriving DecidableEq

/-- `NPROC`. -/
abbrev nproc : Nat := 64

abbrev Slot := Fin nproc

structure Proc where
  state : ProcState
  pid : Int
  parent : Option Slot
  chan : Option Slot
  killed : Bool
  kstack : Option Page
  alarmTf : Option Page
  pgdir : Option (List Page)
  deriving DecidableEq

structure Kernel where
  freelist : List Page
  proc : Slot → Proc
  nextpid : Int
  initproc : Slot

/-- A new free list and a new entry for the slot `p`. -/
def Kernel.put (k : Kernel) (freelist : List Page) (p : Slot) (proc : Proc) : Kernel :=
  { k with freelist, proc := Function.update k.proc p proc }

def allocproc (failsStack failsAlarm : Bool) (k : Kernel) : Option Slot × Kernel :=
  match (List.finRange nproc).find? fun p => (k.proc p).state = .unused with
  | none => (none, k)
  | some p =>
      let embryo := { k.proc p with state := .embryo, pid := k.nextpid }
      let k := { k with nextpid := k.nextpid + 1 }
      match kalloc failsStack k.freelist with
      | (none, freelist) =>
          (none, k.put freelist p { embryo with kstack := none, state := .unused })
      | (some kstack, freelist) =>
          match kalloc failsAlarm freelist with
          | (none, freelist) =>
              (none, k.put (kfree kstack freelist) p
                { embryo with kstack := none, alarmTf := none, state := .unused })
          | (some alarmTf, freelist) =>
              (some p, k.put freelist p
                { embryo with kstack := some kstack, alarmTf := some alarmTf })

/-- Which allocations of a `fork` fail. -/
structure ForkFailures where
  stack : Bool
  alarm : Bool
  copy : Nat → Bool

/-- `kfree(p->kstack)`. -/
def freeStack (proc : Proc) (freelist : List Page) : List Page :=
  proc.kstack.elim freelist fun page => kfree page freelist

def fork (vm : PageTables) (fails : ForkFailures) (curproc : Slot) (k : Kernel) : Int × Kernel :=
  match allocproc fails.stack fails.alarm k with
  | (none, k) => (-1, k)
  | (some np, k) =>
      match vm.copyuvm fails.copy ((k.proc curproc).pgdir.getD []) k.freelist with
      | (none, freelist) =>
          (-1, k.put (freeStack (k.proc np) freelist) np
            { k.proc np with pgdir := none, kstack := none, state := .unused })
      | (some pgdir, freelist) =>
          ((k.proc np).pid, k.put freelist np
            { k.proc np with pgdir := some pgdir, parent := some curproc, state := .runnable })

/-- `wakeup1`. -/
def wakeup1 (chan : Option Slot) (proc : Proc) : Proc :=
  if proc.state = .sleeping ∧ proc.chan = chan then { proc with state := .runnable } else proc

/-- What `exit` does to one entry of the table: the parent is woken up and the children of the
exiting process are passed to init, which is woken up for those that are zombies. -/
def exitEntry (k : Kernel) (curproc p : Slot) : Proc :=
  let woken := wakeup1 (k.proc curproc).parent (k.proc p)
  let passed :=
    if woken.parent = some curproc then { woken with parent := some k.initproc } else woken
  let orphanZombie := ∃ q, (k.proc q).parent = some curproc ∧ (k.proc q).state = .zombie
  if orphanZombie then wakeup1 (some k.initproc) passed else passed

/-- `exit` does not return; for init it panics. -/
def exit (curproc : Slot) (k : Kernel) : Option Kernel :=
  if curproc = k.initproc then none
  else some { k with proc := fun p =>
    if p = curproc then { exitEntry k curproc p with state := .zombie } else exitEntry k curproc p }

/-- The reaping of the zombie `p` in `wait`. -/
def reap (vm : PageTables) (p : Slot) (k : Kernel) : Kernel :=
  k.put (vm.freevm ((k.proc p).pgdir.getD []) (freeStack (k.proc p) k.freelist)) p
    { k.proc p with kstack := none, pid := 0, parent := none, killed := false, state := .unused }

def findZombie (curproc : Slot) (k : Kernel) : Option Slot :=
  (List.finRange nproc).find? fun p =>
    (k.proc p).parent = some curproc ∧ (k.proc p).state = .zombie

/-- One scan of the loop of `wait`. Without a zombie child it returns `-1`, or goes to sleep when
there are children to wait for; the scan is repeated when the process runs again. -/
def wait (vm : PageTables) (curproc : Slot) (k : Kernel) : Option Int × Kernel :=
  match findZombie curproc k with
  | some p => (some (k.proc p).pid, reap vm p k)
  | none =>
      if (∃ p, (k.proc p).parent = some curproc) ∧ (k.proc curproc).killed = false then
        (none, k.put k.freelist curproc
          { k.proc curproc with chan := some curproc, state := .sleeping })
      else (some (-1), k)

inductive Operation where
  | fork (fails : ForkFailures)
  | exit
  | wait

/-- A process that is not waiting, being set up or gone performs an operation. -/
def perform (vm : PageTables) (label : Slot × Operation) (k : Kernel) : Option Kernel :=
  if (k.proc label.1).state = .runnable ∨ (k.proc label.1).state = .running then
    match label.2 with
    | .fork fails => some (fork vm fails label.1 k).2
    | .exit => exit label.1 k
    | .wait => some (wait vm label.1 k).2
  else none

/-- The table after `userinit`: one process, with its kernel stack, its alarm frame and its page
table. -/
def Booted (k : Kernel) : Prop :=
  (k.proc k.initproc).state = .runnable ∧ (k.proc k.initproc).kstack.isSome
    ∧ (k.proc k.initproc).alarmTf.isSome ∧ (k.proc k.initproc).pgdir.isSome
    ∧ ∀ p, p ≠ k.initproc → (k.proc p).state = .unused

def processSystem (vm : PageTables) : System Kernel (Slot × Operation) :=
  .ofFunction Booted (perform vm)

end Acos.Alarm
