import Acos.Fibers.Turns

/-!
# `FiberTryJoin`

The answer is read off the ring: main is alone in it. This is the right answer as soon as main has a
slot, and as long as it has none but somebody was spawned, the answer is no, which is right as well.
Before anything was spawned there is no ring and the answer is no, although there is nobody to wait
for.
-/

namespace Acos.Fibers

open RoundRobin Transition

variable {Func Data : Type} {s : State Func Data} {ring rest : List Addr} {head : Addr}
  {q : Queue Thread}

/-- Every spawned function has run to completion. -/
def AllFinished (s : State Func Data) : Prop :=
  ∀ stack, (s.spawned stack).isSome → stack ∈ s.finished

/-- Main is told whether a fiber is unfinished, and once none is, main gets the turn and is told
so. -/
structure JoinExact (s : State Func Data) : Prop where
  answer : s.control = .user .main →
    ∃ joined, fiberTryJoin s = .ok joined ∧ (joined = true ↔ AllFinished s)
  ends : AllFinished s → ∃ n last, execute perform (List.replicate n .internal) s = some last ∧
    last.control = .user .main ∧ fiberTryJoin last = .ok true

theorem Shape.fiberTryJoin_eq (hshape : Shape s (head :: rest)) (hfirst : s.first = true) :
    fiberTryJoin s = .ok (decide (rest = [])) := by
  unfold fiberTryJoin
  rw [if_pos hfirst, hshape.toWired.current]
  change Except.ok (decide (s.links.next head = head)) = _
  simp only [hshape.isRing.next_eq_self_iff]

/-- The nodes of unfinished fibers and the slot of main are all there is. -/
theorem Shape.thread_eq_main (hshape : Shape s ring) (hall : AllFinished s) {a : Addr}
    (ha : a ∈ ring) : s.thread a = .main := by
  cases hthread : s.thread a with
  | main => rfl
  | fiber stack =>
      have hslot : .fiber stack ∈ ring.map s.thread := hthread ▸ List.mem_map_of_mem ha
      have hsome := (State.thread_eq_fiber_iff.mp hthread).1
      exact absurd hslot (hshape.unfinished stack (hall stack hsome))

theorem Shape.allFinished_iff (hshape : Shape s (head :: rest))
    (hhead : s.thread head = .main) : AllFinished s ↔ rest = [] := by
  constructor
  · intro hall
    apply List.eq_nil_iff_forall_not_mem.mpr
    intro a ha
    apply hshape.thread_ne ha
    rw [hhead]
    exact hshape.thread_eq_main hall (List.mem_cons_of_mem head ha)
  · rintro rfl stack hsome
    by_contra hnot
    have hslot := hshape.present stack hsome hnot
    rw [List.map_singleton, List.mem_singleton, hhead] at hslot
    exact nomatch hslot

/-- Once main has a slot and everybody has finished, main is alone. -/
theorem Shape.ring_eq_singleton (hshape : Shape s ring) (hfirst : s.first = true)
    (hall : AllFinished s) : ∃ head, ring = [head] ∧ s.thread head = .main := by
  cases ring with
  | nil => exact absurd (hshape.main hfirst) List.not_mem_nil
  | cons head rest =>
      have hhead := hshape.thread_eq_main hall List.mem_cons_self
      exact ⟨head, by rw [(hshape.allFinished_iff hhead).mp hall], hhead⟩

/-- With main alone in the ring, what the library still has to do ends in main, with the answer
yes. -/
theorem Queued.join_ends (hqueued : Queued s q) (hfirst : s.first = true)
    (hrunning : ∀ halt, s.control ≠ .halted halt) (hall : AllFinished s) :
    ∃ n last, execute perform (List.replicate n .internal) s = some last ∧
      last.control = .user .main ∧ fiberTryJoin last = .ok true := by
  have halone : ∀ {last : State Func Data} {q' : Queue Thread}, Queued last q' →
      last.first = true → q'.members = [.main] → fiberTryJoin last = .ok true := by
    rintro last _ ⟨ring, hshape, _, rfl⟩ hfirst hmembers
    obtain ⟨head, rfl, _⟩ := List.map_eq_singleton_iff.mp hmembers
    exact hshape.fiberTryJoin_eq hfirst
  have hmembers : q.members = [.main] := by
    obtain ⟨ring, hshape, _, rfl⟩ := hqueued
    obtain ⟨head, rfl, hhead⟩ := hshape.ring_eq_singleton hfirst hall
    exact congrArg (fun thread => [thread]) hhead
  have hagrees := hqueued.agrees
  unfold Agrees at hagrees
  cases hstatus : q.status with
  | before => simp [hstatus, hfirst] at hagrees
  | running marked =>
      have hcontrol := (hqueued.runs_iff.mp ⟨⟨marked, hstatus⟩, by rw [hmembers]; rfl⟩).1
      exact ⟨0, s, rfl, hcontrol, halone hqueued hfirst hmembers⟩
  | leaving =>
      obtain ⟨n, last, hexecute, hcontrol, hfirst', _, q', hqueued', hmembers'⟩ :=
        hqueued.turns hstatus hmembers rfl
      exact ⟨n, last, hexecute, hcontrol, halone hqueued' hfirst' hmembers'⟩
  | arriving left =>
      obtain ⟨n, last, hexecute, hcontrol, hfirst', _, q', hqueued', hmembers'⟩ :=
        hqueued.arrives hstatus hmembers
      exact ⟨n, last, hexecute, hcontrol, halone hqueued' hfirst' (hmembers'.trans hmembers)⟩
  | stopped =>
      rw [hstatus] at hagrees
      obtain ⟨failure, hcontrol⟩ := hagrees
      exact absurd hcontrol (hrunning _)

/-- Nobody has finished as long as main has no slot. -/
theorem finished_eq_empty (run : Run (fiberSystem Func Data))
    (hdisplaces : ∀ i, i < run.length → ¬ Displaces (run.state i) (run.label i)) {i : Nat}
    (hi : i ≤ run.length) (hfirst : (run.state i).first = false)
    (hrunning : ∀ halt, (run.state i).control ≠ .halted halt) : (run.state i).finished = ∅ := by
  obtain ⟨q, hqueued, hsteps⟩ := exists_queues run hdisplaces
  have hfinished : ∀ i, i ≤ run.length → (q i).status = .before → (q i).finished = ∅ := by
    refine run.induction ?_ ?_
    · intro _
      obtain ⟨ring, _, _, hq⟩ := hqueued 0 (Nat.zero_le _)
      rw [hq, State.queue, run.starts.finished, Finset.image_empty]
    · intro i hi ih hbefore
      obtain ⟨hstatus, heq⟩ := (hsteps i hi).finished_of_before hbefore
      rw [heq, ih hstatus]
  have hempty := hfinished i hi (by
    have hagrees := (hqueued i hi).agrees
    unfold Agrees at hagrees
    cases hstatus : (q i).status <;> simp_all)
  obtain ⟨ring, _, _, hq⟩ := hqueued i hi
  rw [hq] at hempty
  exact Finset.image_eq_empty.mp hempty

/-- A yield of main that finds a ring finds a spawned fiber in it. -/
theorem exists_spawned (run : Run (fiberSystem Func Data))
    (hdisplaces : ∀ i, i < run.length → ¬ Displaces (run.state i) (run.label i)) {i : Nat}
    (hi : i ≤ run.length) (hfirst : (run.state i).first = true)
    (hrunning : ∀ halt, (run.state i).control ≠ .halted halt) :
    ∃ stack, ((run.state i).spawned stack).isSome := by
  obtain ⟨q, hqueued, hsteps⟩ := exists_queues run hdisplaces
  have hknows : ∀ i, i ≤ run.length → (q i).status = .before ∨ (q i).status = .stopped ∨
      ∃ stack, (q i).Knows (.fiber stack) := by
    refine run.induction ?_ ?_
    · have hagrees := (hqueued 0 (Nat.zero_le _)).agrees
      unfold Agrees at hagrees
      cases hstatus : (q 0).status <;> simp_all [run.starts.first]
    · intro i hi ih
      rcases ih with hbefore | hstopped | ⟨stack, hstack⟩
      · rcases (hsteps i hi).exists_member hbefore with hstatus | hstatus | ⟨y, hy⟩
        · exact .inl hstatus
        · exact .inr (.inl hstatus)
        · obtain ⟨stack, rfl⟩ := (hqueued i hi.le).exists_fiber hbefore hy
          exact .inr (.inr ⟨stack, (hsteps i hi).knows (.inl hy)⟩)
      · exact .inr (.inl ((hsteps i hi).stopped hstopped))
      · exact .inr (.inr ⟨stack, (hsteps i hi).knows hstack⟩)
  have hagrees := (hqueued i hi).agrees
  unfold Agrees at hagrees
  rcases hknows i hi with hstatus | hstatus | ⟨stack, hstack⟩
  · simp [hstatus, hfirst] at hagrees
  · simp [hstatus, hrunning] at hagrees
  · obtain ⟨ring, hshape, _, hq⟩ := hqueued i hi
    rw [hq] at hstack
    refine ⟨stack, ?_⟩
    rcases hstack with hmem | hmem
    · obtain ⟨a, _, hthread⟩ := List.mem_map.mp hmem
      exact (State.thread_eq_fiber_iff.mp hthread).1
    · obtain ⟨other, hother, heq⟩ := Finset.mem_image.mp hmem
      exact hshape.finished_spawned stack (Thread.fiber.inj heq ▸ hother)

/-- **Join.** In a run in which main displaces no fiber, `FiberTryJoin` is exact in a state just if
some fiber has been spawned before it. -/
theorem joinExact_iff (run : Run (fiberSystem Func Data))
    (hdisplaces : ∀ i, i < run.length → ¬ Displaces (run.state i) (run.label i)) {i : Nat}
    (hi : i ≤ run.length) (hrunning : ∀ halt, (run.state i).control ≠ .halted halt) :
    JoinExact (run.state i) ↔ ∃ stack, ((run.state i).spawned stack).isSome := by
  have hempty := finished_eq_empty run hdisplaces hi
  have hspawned := exists_spawned run hdisplaces hi
  obtain ⟨q, hqueued, _⟩ := exists_queues run hdisplaces
  have hq := hqueued i hi
  generalize run.state i = s at *
  cases hfirst : s.first with
  | false =>
      have hanswer : fiberTryJoin s = .ok false := by simp [fiberTryJoin, hfirst, pure, Except.pure]
      have hfinished : AllFinished s ↔ ¬ ∃ stack, (s.spawned stack).isSome := by
        simp [AllFinished, hempty hfirst hrunning]
      have hcontrol : s.control = .user .main := by
        have hagrees := hq.agrees
        unfold Agrees at hagrees
        cases hstatus : (q i).status <;> simp_all
      constructor
      · intro hexact
        obtain ⟨joined, hjoined, hiff⟩ := hexact.answer hcontrol
        cases hanswer.symm.trans hjoined
        by_contra hnone
        exact absurd (hiff.mpr (hfinished.mpr hnone)) Bool.false_ne_true
      · intro hsome
        refine ⟨fun _ => ⟨false, hanswer, ?_⟩, fun hall => absurd hsome (hfinished.mp hall)⟩
        simp [hfinished, hsome]
  | true =>
      have hexact : JoinExact s := by
        refine ⟨fun hcontrol => ?_, hq.join_ends hfirst hrunning⟩
        have hhead := (hq.runs_iff.mpr ⟨hcontrol, hfirst⟩).2
        obtain ⟨ring, hshape, _, hring⟩ := hq
        rw [hring] at hhead
        cases ring with
        | nil => exact absurd hhead (Option.some_ne_none _).symm
        | cons head rest =>
            refine ⟨_, hshape.fiberTryJoin_eq hfirst, ?_⟩
            rw [decide_eq_true_iff, hshape.allFinished_iff (Option.some.inj hhead)]
      exact iff_of_true hexact (hspawned hfirst hrunning)

/-- Main spawns a fiber, lets it run to its end and joins. -/
theorem joinExact_after_spawn :
    ∃ run : Run (fiberSystem Nat Nat), run.length = 7 ∧ (run.state 7).finished = {0} ∧
      (∀ i, i < run.length → ¬ Displaces (run.state i) (run.label i)) ∧
      JoinExact (run.state 7) := by
  let run : Run (fiberSystem Nat Nat) :=
    .ofExecute (freshState Nat Nat) freshState_initial
      [.fiberSpawn 10 none (.ok 1), .fiberYield (.ok 2), .internal, .internal, .finish, .internal,
        .fiberTryJoin] .internal (by decide +kernel)
  have hdisplaces : ∀ i, i < run.length → ¬ Displaces (run.state i) (run.label i) := by
    decide +kernel
  have hcontrol : (run.state 7).control = .user .main := by decide +kernel
  refine ⟨run, rfl, by decide +kernel, hdisplaces, ?_⟩
  exact (joinExact_iff run hdisplaces (i := 7) le_rfl (by simp [hcontrol])).mpr
    ⟨0, by decide +kernel⟩

/-- Nothing was spawned, so nothing is unfinished, but main is told to wait. -/
theorem joinExact_fails_before_spawn :
    ∃ run : Run (fiberSystem Nat Nat), run.length = 2 ∧ (run.state 2).control = .user .main ∧
      AllFinished (run.state 2) ∧ fiberTryJoin (run.state 2) = .ok false ∧
      ¬ JoinExact (run.state 2) := by
  let run : Run (fiberSystem Nat Nat) :=
    .ofExecute (freshState Nat Nat) freshState_initial [.fiberTryJoin, .fiberYield (.ok 1)]
      .internal (by decide +kernel)
  have hanswer : fiberTryJoin (run.state 2) = .ok false := by decide +kernel
  have hcontrol : (run.state 2).control = .user .main := by decide +kernel
  have hall : AllFinished (run.state 2) := by
    intro stack hsome
    change ((freshState Nat Nat).spawned stack).isSome at hsome
    exact nomatch hsome
  refine ⟨run, rfl, hcontrol, hall, hanswer, fun hexact => ?_⟩
  obtain ⟨joined, hjoined, hiff⟩ := hexact.answer hcontrol
  cases hanswer.symm.trans hjoined
  exact nomatch hiff.mpr hall

end Acos.Fibers
