import Mathlib.Data.List.Perm.Basic
import Acos.Fibers.Model

/-!
# The ring and its contexts

The heap nodes are read as a list of addresses that starts at `fibers`, and each node as the slot
of one thread. What the switches rely on is stated once, by control point: the nodes apart from the
one of the running thread are parked, which means that their context leads into their own thread
and that their flags agree with it.

The invariant is kept by every step except one: a first yield of main that finds more than one
node does not get a slot of its own but takes the one `fibers` points at.
-/

namespace Acos.Fibers

open LinkedRing

variable {Func Data : Type} {s s' : State Func Data} {ring rest : List Addr} {head a : Addr}
  {stack : Nat}

/-! ## Slots -/

namespace State

/-- The thread a node is the slot of. A node nothing was spawned on is the slot of main. -/
def thread (s : State Func Data) (a : Addr) : Thread :=
  if (s.spawned (s.fiber a).stack).isSome then .fiber (s.fiber a).stack else .main

/-- The thread has executed code of the program. -/
def HasRun (s : State Func Data) : Thread → Prop
  | .main => True
  | .fiber stack => ∃ entry ∈ s.started, entry.1 = stack

@[simp] theorem modify_fiber_self (s : State Func Data) (a : Addr)
    (store : Fiber Func Data → Fiber Func Data) :
    (s.modify a store).fiber a = store (s.fiber a) := by
  simp [modify]

theorem modify_fiber_of_ne (s : State Func Data) {a b : Addr} (hne : b ≠ a)
    (store : Fiber Func Data → Fiber Func Data) :
    (s.modify a store).fiber b = s.fiber b := by
  simp [modify, hne]

@[simp] theorem settle_ok (s next : State Func Data) : s.settle (.ok next) = next := rfl

theorem thread_eq_fiber_iff :
    s.thread a = .fiber stack ↔ (s.spawned stack).isSome ∧ (s.fiber a).stack = stack := by
  unfold State.thread
  split
  · constructor
    · intro heq
      cases heq
      exact ⟨‹_›, rfl⟩
    · rintro ⟨_, rfl⟩
      rfl
  · refine ⟨nofun, ?_⟩
    rintro ⟨hsome, rfl⟩
    contradiction

theorem thread_congr (hstack : (s'.fiber a).stack = (s.fiber a).stack)
    (hspawned : s'.spawned (s.fiber a).stack = s.spawned (s.fiber a).stack) :
    s'.thread a = s.thread a := by
  unfold State.thread
  rw [hstack, hspawned]

theorem thread_congr_stack {b : Addr} (hstack : (s.fiber a).stack = (s.fiber b).stack) :
    s.thread a = s.thread b := by
  unfold State.thread
  rw [hstack]

theorem hasRun_congr (hstarted : s'.started = s.started) (owner : Thread) :
    s'.HasRun owner ↔ s.HasRun owner := by
  cases owner <;> simp [HasRun, hstarted]

end State

/-! ## The ring -/

/-- The list of nodes that `fibers` starts. -/
structure Wired (s : State Func Data) (ring : List Addr) : Prop where
  isRing : IsRing s.links ring
  fibers : s.fibers = ring.head?
  live : ∀ a, a ∈ s.live ↔ a ∈ ring

/-- A fiber has a slot from its spawn until it finishes, with the function and the data it was
spawned with, and the log of the calls names each fiber once. -/
structure Shape (s : State Func Data) (ring : List Addr) : Prop extends Wired s ring where
  threads : (ring.map s.thread).Nodup
  main : s.first = true → .main ∈ ring.map s.thread
  stack_lt : ∀ a ∈ ring, (s.fiber a).stack < s.created
  own : ∀ a ∈ ring, ∀ job, s.spawned (s.fiber a).stack = some job →
    (s.fiber a).func = some job.1 ∧ (s.fiber a).data = job.2
  present : ∀ stack, (s.spawned stack).isSome → stack ∉ s.finished →
    .fiber stack ∈ ring.map s.thread
  unfinished : ∀ stack ∈ s.finished, .fiber stack ∉ ring.map s.thread
  spawned_lt : ∀ stack, (s.spawned stack).isSome → stack < s.created
  finished_spawned : ∀ stack ∈ s.finished, (s.spawned stack).isSome
  started_nodup : (s.started.map Prod.fst).Nodup
  started_own : ∀ entry ∈ s.started, s.spawned entry.1 = some entry.2

theorem Wired.access (hwired : Wired s ring) (hmem : a ∈ ring) : s.access a = .ok () :=
  if_pos ((hwired.live a).mpr hmem)

theorem Wired.current (hwired : Wired s (head :: rest)) : s.current = .ok head := by
  unfold State.current
  rw [hwired.fibers]
  change (s.access head >>= fun _ => Except.ok head) = _
  rw [hwired.access List.mem_cons_self]
  rfl

theorem Wired.rotate (hwired : Wired s (head :: rest)) :
    Wired { s with fibers := some (s.links.next head) } (rest ++ [head]) where
  isRing := hwired.isRing.rotate
  fibers := hwired.isRing.head?_rotate.symm
  live a := by
    rw [hwired.live a, List.mem_append, List.mem_singleton, List.mem_cons, or_comm]

/-- The order in which the ring is walked plays no role for the slots. -/
theorem Shape.rotate (hshape : Shape s (head :: rest)) :
    Shape { s with fibers := some (s.links.next head) } (rest ++ [head]) := by
  have hperm : (rest ++ [head]).Perm (head :: rest) := List.perm_append_singleton head rest
  have hthreads : ∀ thread : Thread,
      thread ∈ (rest ++ [head]).map s.thread ↔ thread ∈ (head :: rest).map s.thread :=
    fun _ => (hperm.map s.thread).mem_iff
  exact {
    toWired := hshape.toWired.rotate
    threads := (hperm.map s.thread).nodup_iff.mpr hshape.threads
    main := fun hfirst => (hthreads _).mpr (hshape.main hfirst)
    stack_lt := fun a ha => hshape.stack_lt a (hperm.mem_iff.mp ha)
    own := fun a ha => hshape.own a (hperm.mem_iff.mp ha)
    present := fun stack hsome hnot => (hthreads _).mpr (hshape.present stack hsome hnot)
    unfinished := fun stack hmem => mt (hthreads _).mp (hshape.unfinished stack hmem)
    spawned_lt := hshape.spawned_lt
    finished_spawned := hshape.finished_spawned
    started_nodup := hshape.started_nodup
    started_own := hshape.started_own }

/-- The contexts and the flags play no role for the slots. -/
theorem Shape.congr (hshape : Shape s ring)
    (hheap : s'.links = s.links ∧ s'.live = s.live ∧ s'.fibers = s.fibers ∧
      s'.first = s.first ∧ s'.created = s.created)
    (hhistory : s'.spawned = s.spawned ∧ s'.started = s.started ∧ s'.finished = s.finished)
    (hfiber : ∀ a, (s'.fiber a).stack = (s.fiber a).stack ∧
      (s'.fiber a).func = (s.fiber a).func ∧ (s'.fiber a).data = (s.fiber a).data) :
    Shape s' ring := by
  obtain ⟨hlinks, hlive, hfibers, hfirst, hcreated⟩ := hheap
  obtain ⟨hspawned, hstarted, hfinished⟩ := hhistory
  have hthread : s'.thread = s.thread :=
    funext fun a => State.thread_congr (hfiber a).1 (by rw [hspawned])
  refine ⟨⟨?_, ?_, ?_⟩, ?_, ?_, ?_, ?_, ?_, ?_, ?_, ?_, ?_, ?_⟩
  · rw [hlinks]
    exact hshape.isRing
  · rw [hfibers]
    exact hshape.fibers
  · rw [hlive]
    exact hshape.live
  · rw [hthread]
    exact hshape.threads
  · rw [hthread, hfirst]
    exact hshape.main
  · intro a ha
    rw [(hfiber a).1, hcreated]
    exact hshape.stack_lt a ha
  · intro a ha
    rw [(hfiber a).1, (hfiber a).2.1, (hfiber a).2.2, hspawned]
    exact hshape.own a ha
  · rw [hthread, hspawned, hfinished]
    exact hshape.present
  · rw [hthread, hfinished]
    exact hshape.unfinished
  · rw [hspawned, hcreated]
    exact hshape.spawned_lt
  · rw [hspawned, hfinished]
    exact hshape.finished_spawned
  · rw [hstarted]
    exact hshape.started_nodup
  · rw [hstarted, hspawned]
    exact hshape.started_own

/-- A store that keeps the stack, the function and the data of a node. -/
theorem Shape.modify (hshape : Shape s ring) (a : Addr)
    (store : Fiber Func Data → Fiber Func Data)
    (hstore : ∀ fiber, (store fiber).stack = fiber.stack ∧ (store fiber).func = fiber.func ∧
      (store fiber).data = fiber.data) : Shape (s.modify a store) ring := by
  refine hshape.congr ⟨rfl, rfl, rfl, rfl, rfl⟩ ⟨rfl, rfl, rfl⟩ fun b => ?_
  by_cases hb : b = a
  · subst hb
    rw [State.modify_fiber_self]
    exact hstore _
  · rw [State.modify_fiber_of_ne s hb]
    exact ⟨rfl, rfl, rfl⟩

theorem Shape.ne_of_mem (hshape : Shape s (head :: rest)) (ha : a ∈ rest) : a ≠ head := by
  rintro rfl
  exact (List.nodup_cons.mp hshape.isRing.nodup).1 ha

theorem Shape.thread_ne (hshape : Shape s (head :: rest)) (ha : a ∈ rest) :
    s.thread a ≠ s.thread head := by
  intro heq
  have hnodup := hshape.threads
  rw [List.map_cons, List.nodup_cons] at hnodup
  exact hnodup.1 (heq ▸ List.mem_map_of_mem ha)

/-! ## Parked nodes -/

/-- The context of the node leads into its own thread: to the start of it if it has not run, and
behind its last `FiberYield` otherwise. -/
def Resumes (s : State Func Data) (a : Addr) : Prop :=
  (¬ s.HasRun (s.thread a) ∧ (s.fiber a).ctx = .start (s.fiber a).stack ∧
    (s.fiber a).repeats = true) ∨
  (s.HasRun (s.thread a) ∧ (s.fiber a).repeats = false ∧
    ∃ site, (s.fiber a).ctx = .saved (s.thread a) (s.calls (s.thread a)) site)

structure Parked (s : State Func Data) (a : Addr) : Prop where
  done : (s.fiber a).done = false
  resumes : Resumes s a

theorem Parked.congr (hparked : Parked s a) (hfiber : s'.fiber a = s.fiber a)
    (hspawned : s'.spawned (s.fiber a).stack = s.spawned (s.fiber a).stack)
    (hrun : s'.HasRun (s.thread a) ↔ s.HasRun (s.thread a))
    (hcalls : s'.calls (s.thread a) = s.calls (s.thread a)) : Parked s' a := by
  have hthread : s'.thread a = s.thread a := State.thread_congr (by rw [hfiber]) hspawned
  obtain ⟨hdone, hresumes⟩ := hparked
  refine ⟨by rw [hfiber, hdone], ?_⟩
  unfold Resumes at hresumes ⊢
  rw [hthread, hfiber, hrun, hcalls]
  exact hresumes

/-- What holds at each control point. -/
inductive Phase (s : State Func Data) : List Addr → Prop where
  /-- No yield has found a node yet. -/
  | before {ring : List Addr} (hfirst : s.first = false) (hcontrol : s.control = .user .main)
      (hring : ∀ a ∈ ring, Parked s a ∧ ¬ s.HasRun (s.thread a)) : Phase s ring
  | user {head : Addr} {rest : List Addr} (hfirst : s.first = true)
      (hcontrol : s.control = .user (s.thread head)) (hrun : s.HasRun (s.thread head))
      (hrest : ∀ a ∈ rest, Parked s a) : Phase s (head :: rest)
  | afterSave {head : Addr} {rest : List Addr} (hfirst : s.first = true)
      (hcontrol : s.control = .afterSave (s.thread head)) (hrun : s.HasRun (s.thread head))
      (hctx : (s.fiber head).ctx = .saved (s.thread head) (s.calls (s.thread head)) .current)
      (hrest : ∀ a ∈ rest, Parked s a) : Phase s (head :: rest)
  /-- The call has been resumed and is about to return. -/
  | returning {head : Addr} {rest : List Addr} (hfirst : s.first = true)
      (hcontrol : s.control = .resume (s.thread head)) (hrun : s.HasRun (s.thread head))
      (hdone : (s.fiber head).done = true)
      (hrest : ∀ a ∈ rest, Parked s a) : Phase s (head :: rest)
  /-- The thread that yields is parked itself, and the one at the head is next. -/
  | switching {head : Addr} {rest : List Addr} (thread : Thread) (hfirst : s.first = true)
      (hcontrol : s.control = .resume thread)
      (hring : ∀ a ∈ head :: rest, Parked s a) : Phase s (head :: rest)
  | starting {head : Addr} {rest : List Addr} {stack : Nat} (hfirst : s.first = true)
      (hcontrol : s.control = .startFunc stack) (hthread : s.thread head = .fiber stack)
      (hrun : ¬ s.HasRun (s.thread head))
      (hrest : ∀ a ∈ rest, Parked s a) : Phase s (head :: rest)
  | exited {ring : List Addr} (failure : AllocFailure)
      (hcontrol : s.control = .halted (.exit failure)) : Phase s ring

def Inv (s : State Func Data) : Prop := ∃ ring, Shape s ring ∧ Phase s ring

theorem Initial.inv (hinit : Initial s) : Inv s := by
  refine ⟨[], ?_, .before hinit.first hinit.control nofun⟩
  exact {
    isRing := trivial
    fibers := hinit.fibers
    live := fun a => by simp [hinit.live]
    threads := List.nodup_nil
    main := fun hfirst => by simp [hinit.first] at hfirst
    stack_lt := nofun
    own := nofun
    present := fun stack hsome => by simp [hinit.spawned stack] at hsome
    unfinished := nofun
    spawned_lt := fun stack hsome => by simp [hinit.spawned stack] at hsome
    finished_spawned := fun stack hmem => by simp [hinit.finished] at hmem
    started_nodup := by simp [hinit.started]
    started_own := fun entry hmem => by simp [hinit.started] at hmem }

end Acos.Fibers
