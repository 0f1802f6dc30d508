import Mathlib.Data.Finset.Insert
import Acos.Lib.LinkedRing
import Acos.Lib.Transition

/-!
# Cooperative fibers

The fibers live in a ring of heap nodes, `fibers` points at the one that runs or is about to run,
and a switch is a `save_context` into one node followed by a `get_context` from another. A saved
context is modelled by what it stands for: the bottom of a stack with `start_func` as the return
address, or the point behind a `save_context` call of a thread's own `FiberYield`. Since
`save_context` returns once for the caller and once for every `get_context` of what it saved, the
code behind it is a control point of its own.

The memory of the nodes is kept by component: the links, the other fields, and the set of nodes
that are allocated. Stacks are numbered in the order `create_new_fiber` allocates them, and a
fiber is named by its stack.
-/

namespace Acos.Fibers

open LinkedRing

abbrev Addr := Nat

/-- Whose stack is in use: that of the process, or the one of a fiber. -/
inductive Thread where
  | main
  | fiber (stack : Nat)
deriving DecidableEq, Repr

/-- The two `save_context` calls of `FiberYield`: into the node that is made for main at its first
yield, and into the node `fibers` points at. -/
inductive Site where
  | newFiber
  | current
deriving DecidableEq, Repr

/-- The registers of a node. A saved context also tells the number of the `FiberYield` call of its
thread whose frame it returns into. -/
inductive Context where
  | start (stack : Nat)
  | saved (thread : Thread) (call : Nat) (site : Site)
deriving DecidableEq, Repr

/-- The three allocations of `create_new_fiber`. -/
inductive AllocFailure where
  | fiber
  | stack
  | context
deriving DecidableEq, Repr

def AllocFailure.message : AllocFailure → String
  | .fiber => "error: failed to allocate fiber\n"
  | .stack => "error: failed to allocate fiber stack\n"
  | .context => "error: failed to allocate fiber context\n"

/-- The process has printed a message and exited, or it has gone through a pointer or a context
that is not valid any more. -/
inductive Halt where
  | exit (failure : AllocFailure)
  | undefined
deriving DecidableEq, Repr

/-- What is executed: code of the program, the code of `FiberYield` behind `save_context`, the code
behind its two branches, or the first line of `start_func`. -/
inductive Control where
  | user (thread : Thread)
  | afterSave (thread : Thread)
  | resume (thread : Thread)
  | startFunc (stack : Nat)
  | halted (halt : Halt)
deriving DecidableEq, Repr

/-- The thread on whose stack the process executes. -/
def Control.thread : Control → Option Thread
  | .user thread => some thread
  | .afterSave thread => some thread
  | .resume thread => some thread
  | .startFunc stack => some (.fiber stack)
  | .halted _ => none

/-- The fields of a node apart from its links. -/
structure Fiber (Func Data : Type) where
  func : Option Func
  data : Option Data
  stack : Nat
  ctx : Context
  done : Bool
  repeats : Bool

namespace Fiber

variable {Func Data : Type}

/-- A node as `create_new_fiber` fills it in. Its callers set `func` and `data` before anything
reads them. -/
def new (stack : Nat) : Fiber Func Data where
  func := none
  data := none
  stack := stack
  ctx := .start stack
  done := false
  repeats := true

def setJob (func : Option Func) (data : Option Data) (fiber : Fiber Func Data) : Fiber Func Data :=
  { fiber with func := func, data := data }

def setCtx (ctx : Context) (fiber : Fiber Func Data) : Fiber Func Data :=
  { fiber with ctx := ctx }

def setDone (done : Bool) (fiber : Fiber Func Data) : Fiber Func Data :=
  { fiber with done := done }

def setRepeats (repeats : Bool) (fiber : Fiber Func Data) : Fiber Func Data :=
  { fiber with repeats := repeats }

end Fiber

/-- The memory of the library, and the history of the execution: how often each thread has called
`FiberYield`, what was spawned on each stack, the calls of spawned functions in their order, and
the fibers that have finished. -/
structure State (Func Data : Type) where
  links : Links Addr
  fiber : Addr → Fiber Func Data
  live : Finset Addr
  fibers : Option Addr
  first : Bool
  control : Control
  created : Nat
  calls : Thread → Nat
  spawned : Nat → Option (Func × Option Data)
  started : List (Nat × Func × Option Data)
  finished : Finset Nat

variable {Func Data : Type}

namespace State

variable (s : State Func Data)

/-- A store to fields of one node. -/
def modify (a : Addr) (store : Fiber Func Data → Fiber Func Data) : State Func Data :=
  { s with fiber := Function.update s.fiber a (store (s.fiber a)) }

/-- A pointer to a node can be followed as long as the node is allocated. -/
def access (a : Addr) : Except Halt Unit :=
  if a ∈ s.live then .ok () else .error .undefined

/-- The node of `fibers`, which is followed. -/
def current : Except Halt Addr :=
  match s.fibers with
  | none => .error .undefined
  | some head => do
      s.access head
      return head

end State

/-- `create_new_fiber`. -/
def createNewFiber (alloc : Except AllocFailure Addr) (s : State Func Data) :
    Except Halt (State Func Data) :=
  match alloc with
  | .error failure => .error (.exit failure)
  | .ok addr => do
      let s := { s with
        live := insert addr s.live
        fiber := Function.update s.fiber addr (.new s.created)
        created := s.created + 1 }
      match s.fibers with
      | none => return { s with fibers := some addr, links := s.links.single addr }
      | some head =>
          s.access head
          s.access (s.links.prev head)
          return { s with links := s.links.insertBefore head addr }

/-- `FiberSpawn`. -/
def fiberSpawn (func : Func) (data : Option Data) (alloc : Except AllocFailure Addr)
    (s : State Func Data) : Except Halt (State Func Data) := do
  let stack := s.created
  let s ← createNewFiber alloc s
  let head ← s.current
  s.access (s.links.prev head)
  let s := s.modify (s.links.prev head) (Fiber.setJob (some func) data)
  return { s with spawned := Function.update s.spawned stack (some (func, data)) }

/-- A context can be returned into while the frame it was saved in is still there: the frame of the
last `FiberYield` call of a thread that has not finished. -/
def Context.Valid (s : State Func Data) : Context → Prop
  | .start _ => True
  | .saved thread call _ => call = s.calls thread ∧ ∀ stack ∈ s.finished, thread ≠ .fiber stack

instance (s : State Func Data) : (ctx : Context) → Decidable (ctx.Valid s)
  | .start _ => inferInstanceAs (Decidable True)
  | .saved thread call _ => inferInstanceAs
      (Decidable (call = s.calls thread ∧ ∀ stack ∈ s.finished, thread ≠ .fiber stack))

/-- Where the return address of a context points. -/
def Context.target : Context → Control
  | .start stack => .startFunc stack
  | .saved thread _ .newFiber => .resume thread
  | .saved thread _ .current => .afterSave thread

/-- `get_context`. -/
def getContext (ctx : Context) (s : State Func Data) : Except Halt (State Func Data) :=
  if ctx.Valid s then .ok { s with control := ctx.target } else .error .undefined

/-- One more call of `FiberYield`. -/
def State.called (s : State Func Data) (thread : Thread) : State Func Data :=
  { s with calls := Function.update s.calls thread (s.calls thread + 1) }

/-- The first branch of `FiberYield`: the caller gets a node of its own. -/
def saveNewFiber (thread : Thread) (alloc : Except AllocFailure Addr) (s : State Func Data) :
    Except Halt (State Func Data) := do
  let s ← createNewFiber alloc { s with first := true }
  let head ← s.current
  s.access (s.links.prev head)
  let s := s.modify (s.links.prev head) fun fiber =>
    ((fiber.setJob none none).setRepeats false).setCtx (.saved thread (s.calls thread) .newFiber)
  return { s with control := .resume thread }

/-- The second branch of `FiberYield`, up to the return of `save_context`. -/
def saveCurrent (thread : Thread) (s : State Func Data) : Except Halt (State Func Data) := do
  let head ← s.current
  let s := s.modify head (Fiber.setCtx (.saved thread (s.calls thread) .current))
  return { s with control := .afterSave thread }

/-- `FiberYield` up to the first return of `save_context`. -/
def fiberYield (thread : Thread) (alloc : Except AllocFailure Addr) (s : State Func Data) :
    Except Halt (State Func Data) := do
  let s := s.called thread
  if s.fibers = none then
    return s
  let head ← s.current
  if s.first = false ∧ s.links.next head = head then
    saveNewFiber thread alloc s
  else
    saveCurrent thread s

/-- The rest of the second branch of `FiberYield`, behind `save_context`. -/
def afterSave (thread : Thread) (s : State Func Data) : Except Halt (State Func Data) := do
  let head ← s.current
  let s := s.modify head (Fiber.setRepeats false)
  let s := if (s.fiber head).done then s else { s with fibers := some (s.links.next head) }
  return { s with control := .resume thread }

/-- The end of `FiberYield`, behind its two branches. -/
def resume (thread : Thread) (s : State Func Data) : Except Halt (State Func Data) := do
  let head ← s.current
  if (s.fiber head).done then
    let s := s.modify head (Fiber.setDone false)
    return { s with control := .user thread }
  else
    let s := if (s.fiber head).repeats then s else s.modify head (Fiber.setDone true)
    getContext (s.fiber head).ctx s

/-- The first line of `start_func`. -/
def startFunc (stack : Nat) (s : State Func Data) : Except Halt (State Func Data) := do
  let head ← s.current
  match (s.fiber head).func with
  | none => .error .undefined
  | some func =>
      return { s with
        control := .user (.fiber stack)
        started := s.started ++ [(stack, func, (s.fiber head).data)] }

/-- The fiber at the node has finished: the node is taken out of the ring and freed, and `fibers`
moves on. -/
def State.removed (s : State Func Data) (stack : Nat) (tmp : Addr) : State Func Data :=
  { s with
    finished := insert stack s.finished
    links := s.links.unlink tmp
    live := s.live.erase tmp
    fibers := some (s.links.next tmp) }

/-- `start_func` after the function of the fiber has returned. It is still on the stack that it has
freed, until the switch to the next fiber: the allocator is assumed not to touch a freed stack before
that, as the one of `-fsanitize=address` does not, while that of a plain build may unmap it. -/
def finish (stack : Nat) (s : State Func Data) : Except Halt (State Func Data) := do
  let tmp ← s.current
  let nxt := s.links.next tmp
  s.access (s.links.prev tmp)
  s.access nxt
  let s := s.removed stack tmp
  s.access nxt
  let s := s.modify nxt (Fiber.setDone true)
  getContext (s.fiber nxt).ctx s

/-- `FiberTryJoin`. -/
def fiberTryJoin (s : State Func Data) : Except Halt Bool := do
  if s.first then
    let head ← s.current
    return decide (s.links.next head = head)
  else
    return false

/-- What can happen next: a call of the program, with the outcome of the allocations it makes, the
return of the function of a fiber, or a piece of the code of the library. -/
inductive Action (Func Data : Type) where
  | fiberSpawn (func : Func) (data : Option Data) (alloc : Except AllocFailure Addr)
  | fiberYield (alloc : Except AllocFailure Addr)
  | fiberTryJoin
  | finish
  | internal

/-- A process that halts stays halted. -/
def State.settle (s : State Func Data) : Except Halt (State Func Data) → State Func Data
  | .ok next => next
  | .error halt => { s with control := .halted halt }

/-- An allocation returns an address that is not in use. -/
def Available (s : State Func Data) (alloc : Except AllocFailure Addr) : Prop :=
  ∀ addr ∈ s.live, alloc.toOption ≠ some addr

instance (s : State Func Data) (alloc : Except AllocFailure Addr) : Decidable (Available s alloc) :=
  inferInstanceAs (Decidable (∀ addr ∈ s.live, alloc.toOption ≠ some addr))

/-- One step of the process. -/
def perform (action : Action Func Data) (s : State Func Data) : Option (State Func Data) :=
  match s.control, action with
  | .user _, .fiberSpawn func data alloc =>
      if Available s alloc then some (s.settle (fiberSpawn func data alloc s)) else none
  | .user thread, .fiberYield alloc =>
      if Available s alloc then some (s.settle (fiberYield thread alloc s)) else none
  | .user _, .fiberTryJoin => some (s.settle ((fiberTryJoin s).map fun _ => s))
  | .user (.fiber stack), .finish => some (s.settle (finish stack s))
  | .afterSave thread, .internal => some (s.settle (afterSave thread s))
  | .resume thread, .internal => some (s.settle (resume thread s))
  | .startFunc stack, .internal => some (s.settle (startFunc stack s))
  | _, _ => none

/-- The program starts in main, with an empty ring. -/
structure Initial (s : State Func Data) : Prop where
  live : s.live = ∅
  fibers : s.fibers = none
  first : s.first = false
  control : s.control = .user .main
  created : s.created = 0
  calls : ∀ thread, s.calls thread = 0
  spawned : ∀ stack, s.spawned stack = none
  started : s.started = []
  finished : s.finished = ∅

def fiberSystem (Func Data : Type) : Transition.System (State Func Data) (Action Func Data) :=
  Transition.System.ofFunction Initial perform

end Acos.Fibers
