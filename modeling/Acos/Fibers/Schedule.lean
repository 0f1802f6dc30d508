import Mathlib.Data.Finset.Image
import Acos.Fibers.Invariant
import Acos.Lib.RoundRobin

/-!
# The ring as a queue

What the scheduler sees of a state: whose turn it is, who is in the ring, who has begun and who has
finished. The flag `done` of the node `fibers` points at is the mark of the head. It tells
`FiberYield`, whose code behind `save_context` runs both when a thread leaves and when it comes
back, which of the two it is.
-/

namespace Acos.Fibers

open RoundRobin

variable {Func Data : Type} {s s' : State Func Data} {ring rest : List Addr} {head : Addr}
  {thread : Thread}

def Action.event : Action Func Data → Event
  | .fiberSpawn _ _ _ => .spawn
  | .fiberYield _ => .yield
  | .fiberTryJoin => .query
  | .finish => .finish
  | .internal => .internal

namespace State

/-- The threads that have executed code of the program, in the order they began. -/
def begun (s : State Func Data) : List Thread :=
  .main :: s.started.map fun entry => .fiber entry.1

def status (s : State Func Data) : Status :=
  match s.control, s.fibers with
  | .user _, some head => if s.first then .running (s.fiber head).done else .before
  | .user _, none => .before
  | .afterSave _, some head => if (s.fiber head).done then .arriving 2 else .leaving
  | .resume _, some head => .arriving (if (s.fiber head).done then 1 else 3)
  | .startFunc _, some _ => .arriving 1
  | _, _ => .stopped

def queue (s : State Func Data) (ring : List Addr) : Queue Thread where
  status := s.status
  members := ring.map s.thread
  begun := s.begun
  finished := s.finished.image .fiber

theorem hasRun_iff : s.HasRun thread ↔ thread ∈ s.begun := by
  cases thread <;> simp [HasRun, begun]

theorem status_user (hcontrol : s.control = .user thread) (hfibers : s.fibers = some head)
    (hfirst : s.first = true) : s.status = .running (s.fiber head).done := by
  simp [status, hcontrol, hfibers, hfirst]

theorem status_before (hcontrol : s.control = .user thread) (hfirst : s.first = false) :
    s.status = .before := by
  unfold status
  rw [hcontrol]
  cases s.fibers <;> simp [hfirst]

theorem status_afterSave (hcontrol : s.control = .afterSave thread)
    (hfibers : s.fibers = some head) :
    s.status = if (s.fiber head).done then .arriving 2 else .leaving := by
  simp [status, hcontrol, hfibers]

theorem status_resume (hcontrol : s.control = .resume thread) (hfibers : s.fibers = some head) :
    s.status = .arriving (if (s.fiber head).done then 1 else 3) := by
  simp [status, hcontrol, hfibers]

theorem status_startFunc {stack : Nat} (hcontrol : s.control = .startFunc stack)
    (hfibers : s.fibers = some head) : s.status = .arriving 1 := by
  simp [status, hcontrol, hfibers]

theorem status_halted {halt : Halt} (hcontrol : s.control = .halted halt) :
    s.status = .stopped := by
  unfold status
  rw [hcontrol]

/-- A change to flags and contexts shows in the status only. -/
theorem queue_eq {status : Status} (hthread : ∀ a ∈ ring, s'.thread a = s.thread a)
    (hstarted : s'.started = s.started) (hfinished : s'.finished = s.finished)
    (hstatus : s'.status = status) :
    s'.queue ring = { s.queue ring with status := status } := by
  apply Queue.ext
  · exact hstatus
  · exact List.map_congr_left hthread
  · exact congrArg (fun started => Thread.main :: started.map fun entry => .fiber entry.1) hstarted
  · exact congrArg (Finset.image Thread.fiber) hfinished

theorem queue_rotate (s : State Func Data) (head : Addr) (rest : List Addr) :
    s.queue (rest ++ [head])
      = { s.queue (head :: rest) with members := rest.map s.thread ++ [s.thread head] } :=
  Queue.ext rfl List.map_append rfl rfl

end State

/-- The state continues the queue by one step of round robin. -/
def Follows (event : Event) (q : Queue Thread) (s' : State Func Data) : Prop :=
  ∃ ring, Shape s' ring ∧ Phase s' ring ∧ Step event q (s'.queue ring)

theorem Follows.of_status {event : Event} {q : Queue Thread} {status : Status}
    (hshape : Shape s' ring) (hphase : Phase s' ring)
    (hthread : ∀ a ∈ ring, s'.thread a = s.thread a) (hstarted : s'.started = s.started)
    (hfinished : s'.finished = s.finished) (hstatus : s'.status = status)
    (hstep : Step event q { s.queue ring with status := status }) : Follows event q s' := by
  refine ⟨ring, hshape, hphase, ?_⟩
  rw [State.queue_eq hthread hstarted hfinished hstatus]
  exact hstep

end Acos.Fibers
