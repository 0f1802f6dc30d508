import Acos.Fibers.Turns

/-!
# Round robin

A yield of the running thread gives the turn to the next node of the ring, and the turn comes back
only after everyone else in the ring has had it. The exception is a thread whose node is marked as
resumed although it was started: a fiber that finishes marks its successor, whether this one has run
before or not. The mark is left to the first yield of a fresh successor, which takes it for its own
return and goes on at once.
-/

namespace Acos.Fibers

open RoundRobin Transition

variable {Func Data : Type} {s : State Func Data} {ring rest : List Addr} {head : Addr}
  {q : Queue Thread}

/-- The yield and the code of the library behind it lead into the successor, which is started if it
has never run and resumed otherwise. -/
def HandsOver (s : State Func Data) (alloc : Except AllocFailure Addr) (next : Thread) : Prop :=
  ∃ n last,
    execute perform (.fiberYield alloc :: List.replicate n .internal) s = some last ∧
      last.control = .user next ∧
      last.begun = if next ∈ s.begun then s.begun else s.begun ++ [next]

/-- The law of round robin for the yield at moment `i` of a run: the successor gets the turn, and
the thread itself gets it back only after each other thread of the ring has had it. -/
structure TakesTurns (run : Run (fiberSystem Func Data)) (i : Nat)
    (alloc : Except AllocFailure Addr) (thread : Thread) (head : Addr) : Prop where
  successor : HandsOver (run.state i) alloc
    ((run.state i).thread ((run.state i).links.next head))
  others : ∀ j, i < j → j ≤ run.length → (run.state j).control = .user thread →
    ∀ a, OnRing (run.state i) a → (run.state i).thread a ≠ thread →
      ∃ k, i < k ∧ k < j ∧ (run.state k).control = .user ((run.state i).thread a)

/-- What a yield finds: its thread, the successor and the mark. -/
theorem Queued.running (hqueued : Queued s q) {thread : Thread}
    (hcontrol : s.control = .user thread) (hfirst : s.first = true) (hhead : s.fibers = some head)
    (hother : s.links.next head ≠ head) :
    q.status = .running (s.fiber head).done ∧
      (∃ others, q.members = thread :: s.thread (s.links.next head) :: others) ∧
      ∀ a, OnRing s a → s.thread a ∈ q.members := by
  have hstatus := hqueued.status_eq.trans (State.status_user hcontrol hhead hfirst)
  have hthread := (hqueued.runs_iff.mpr ⟨hcontrol, hfirst⟩).2
  obtain ⟨ring, hshape, _, rfl⟩ := hqueued
  obtain ⟨rest, rfl⟩ := List.head?_eq_some_iff.mp (hshape.fibers.symm.trans hhead)
  cases Option.some.inj hthread
  refine ⟨hstatus, ?_, fun a ha => List.mem_map_of_mem ((hshape.live a).mp ha.1)⟩
  cases rest with
  | nil => exact absurd (hshape.isRing.next_eq_self_iff.mpr rfl) hother
  | cons nxt others =>
      have hnext : nxt = s.links.next head := Option.some.inj hshape.isRing.head?_rotate
      exact ⟨others.map s.thread, by rw [← hnext]; rfl⟩

section Yield

variable {run : Run (fiberSystem Func Data)} {q : Nat → Queue Thread}
  (hqueued : ∀ i, i ≤ run.length → Queued (run.state i) (q i))
  (hsteps : ∀ i, i < run.length → Step (run.label i).event (q i) (q (i + 1)))
include hqueued hsteps

/-- Main does not lose its slot. -/
theorem runs_of_control {i j : Nat} (hij : i ≤ j) (hj : j ≤ run.length)
    (hbefore : (q i).status ≠ .before) {thread : Thread}
    (hcontrol : (run.state j).control = .user thread) : (q j).Runs thread := by
  have hlater : ∀ j, i ≤ j → j ≤ run.length → (q j).status ≠ .before := by
    intro j hij
    induction j, hij using Nat.le_induction with
    | base => exact fun _ => hbefore
    | succ j _ ih =>
        intro hj hstatus
        exact ih (Nat.le_of_succ_le hj) ((hsteps j hj).finished_of_before hstatus).1
  rw [(hqueued j hj).runs_iff]
  have hstatus := hlater j hij hj
  have hagrees := (hqueued j hj).agrees
  unfold Agrees at hagrees
  cases hcase : (q j).status <;> simp_all

variable {i : Nat} (hi : i < run.length) {alloc : Except AllocFailure Addr}
  (hyield : run.label i = .fiberYield alloc) {thread next : Thread} {others : List Thread}
  (hmembers : (q i).members = thread :: next :: others)
include hi hyield hmembers

omit hqueued hsteps hmembers in
theorem execute_yield (n : Nat) :
    execute perform (.fiberYield alloc :: List.replicate n .internal) (run.state i)
      = execute perform (List.replicate n .internal) (run.state (i + 1)) := by
  have hstep : perform (.fiberYield alloc) (run.state i) = some (run.state (i + 1)) :=
    hyield ▸ run.steps i hi
  rw [execute, hstep]
  rfl

/-- Without the mark the successor gets the turn. -/
theorem handsOver_of_unmarked (hstatus : (q i).status = .running false) :
    HandsOver (run.state i) alloc next := by
  have hstep := hsteps i hi
  rw [hyield] at hstep
  have hleave := hstep.of_running_false hstatus
  have hqueued' := hqueued (i + 1) hi
  rw [hleave] at hqueued'
  have hbegun : (run.state (i + 1)).begun = (run.state i).begun :=
    hqueued'.begun_eq.symm.trans (hqueued i hi.le).begun_eq
  obtain ⟨n, last, hexecute, hcontrol, _, hlast, _⟩ :=
    hqueued'.turns rfl hmembers (List.cons_append ..)
  rw [hbegun] at hlast
  exact ⟨n, last, (execute_yield hi hyield n).trans hexecute, hcontrol, hlast⟩

/-- With the mark the yield returns at once. -/
theorem not_handsOver_of_marked (hstatus : (q i).status = .running true) :
    ¬ HandsOver (run.state i) alloc next := by
  rintro ⟨m, last', hexecute', hcontrol', _⟩
  have hstep := hsteps i hi
  rw [hyield] at hstep
  obtain ⟨left, hkeep⟩ := hstep.of_running_true hstatus
  have hqueued' := hqueued (i + 1) hi
  rw [hkeep] at hqueued'
  obtain ⟨n, last, hexecute, hcontrol, _⟩ := hqueued'.arrives rfl hmembers
  rw [execute_yield hi hyield] at hexecute'
  cases execute_internal_unique hexecute hcontrol hexecute' hcontrol'
  cases hcontrol.symm.trans hcontrol'
  have hnodup := (hqueued i hi.le).nodup
  simp [hmembers] at hnodup

/-- Without the mark the turn comes back only after everyone else has had it. -/
theorem others_run_of_unmarked (hstatus : (q i).status = .running false) {j : Nat} (hij : i < j)
    (hj : j ≤ run.length) (hcontrol : (run.state j).control = .user thread) {y : Thread}
    (hy : y ∈ (q i).members) (hne : y ≠ thread) :
    ∃ k, i < k ∧ k < j ∧ (run.state k).control = .user y := by
  have hstep := hsteps i hi
  rw [hyield] at hstep
  have hleave := hstep.of_running_false hstatus
  have hnodup := (hqueued i hi.le).nodup
  rw [hmembers] at hnodup hy
  obtain ⟨k, hik, hkj, hruns⟩ := runs_between (q := q) (i := i) (j := j)
    (fun k hik hkj => ⟨_, hsteps k (by omega)⟩) (by rw [hleave]) (by rw [hleave, hmembers])
    (List.nodup_cons.mp hnodup).1 hij (hqueued j hj).nodup
    (runs_of_control hqueued hsteps hij.le hj (by simp [hstatus]) hcontrol) y
    ((List.mem_cons.mp hy).resolve_left hne)
  exact ⟨k, hik, hkj, ((hqueued k (by omega)).runs_iff.mp hruns).1⟩

end Yield

/-- **Round robin.** In a run in which main displaces no fiber, a yield into a ring of two or more
nodes takes turns just if the node of the running thread is not marked. -/
theorem takesTurns_iff (run : Run (fiberSystem Func Data))
    (hdisplaces : ∀ i, i < run.length → ¬ Displaces (run.state i) (run.label i)) {i : Nat}
    (hi : i < run.length) {alloc : Except AllocFailure Addr}
    (hyield : run.label i = .fiberYield alloc) {thread : Thread}
    (hcontrol : (run.state i).control = .user thread) (hfirst : (run.state i).first = true)
    {head : Addr} (hhead : (run.state i).fibers = some head)
    (hother : (run.state i).links.next head ≠ head) :
    TakesTurns run i alloc thread head ↔ ((run.state i).fiber head).done = false := by
  obtain ⟨q, hqueued, hsteps⟩ := exists_queues run hdisplaces
  obtain ⟨hstatus, ⟨others, hmembers⟩, hring⟩ :=
    (hqueued i hi.le).running hcontrol hfirst hhead hother
  cases hmark : ((run.state i).fiber head).done with
  | false =>
      rw [hmark] at hstatus
      refine iff_of_true ⟨?_, ?_⟩ rfl
      · exact handsOver_of_unmarked hqueued hsteps hi hyield hmembers hstatus
      · exact fun j hij hj hback a ha hne =>
          others_run_of_unmarked hqueued hsteps hi hyield hmembers hstatus hij hj hback
            (hring a ha) hne
  | true =>
      rw [hmark] at hstatus
      refine iff_of_false (fun hturns => ?_) nofun
      exact not_handsOver_of_marked hqueued hsteps hi hyield hmembers hstatus hturns.successor

/-- A fiber yields to main, and main yields back. -/
theorem takesTurns_two_threads :
    ∃ run : Run (fiberSystem Nat Nat), run.length = 13 ∧
      (run.state 4).control = .user (.fiber 0) ∧ (run.state 13).control = .user (.fiber 0) ∧
      TakesTurns run 4 (.ok 3) (.fiber 0) 1 := by
  let run : Run (fiberSystem Nat Nat) :=
    .ofExecute (freshState Nat Nat) freshState_initial
      [.fiberSpawn 10 none (.ok 1), .fiberYield (.ok 2), .internal, .internal,
        .fiberYield (.ok 3), .internal, .internal, .internal,
        .fiberYield (.ok 3), .internal, .internal, .internal, .internal] .internal
      (by decide +kernel)
  have hdisplaces : ∀ i, i < run.length → ¬ Displaces (run.state i) (run.label i) := by
    decide +kernel
  have hcontrol : (run.state 4).control = .user (.fiber 0) := by decide +kernel
  refine ⟨run, rfl, hcontrol, by decide +kernel, ?_⟩
  exact (takesTurns_iff run hdisplaces (i := 4) (by decide) rfl hcontrol (by decide +kernel)
    (by decide +kernel) (by decide +kernel)).mpr (by decide +kernel)

/-- Main runs one fiber to its end and then yields to two more. The first of these finishes without
a yield, and the yield of the second returns although main is waiting. -/
theorem takesTurns_fails_after_finish :
    ∃ run : Run (fiberSystem Nat Nat), run.length = 17 ∧
      (∀ i, i < run.length → ¬ Displaces (run.state i) (run.label i)) ∧
      run.label 14 = .fiberYield (.ok 5) ∧ (run.state 14).first = true ∧
      (run.state 14).control = .user (.fiber 3) ∧ (run.state 17).control = .user (.fiber 3) ∧
      ¬ TakesTurns run 14 (.ok 5) (.fiber 3) 4 := by
  let run : Run (fiberSystem Nat Nat) :=
    .ofExecute (freshState Nat Nat) freshState_initial
      [.fiberSpawn 10 none (.ok 1), .fiberYield (.ok 2), .internal, .internal, .finish, .internal,
        .fiberSpawn 20 none (.ok 3), .fiberSpawn 30 none (.ok 4), .fiberYield (.ok 5), .internal,
        .internal, .internal, .finish, .internal,
        .fiberYield (.ok 5), .internal, .internal] .internal (by decide +kernel)
  have hback : (run.state 17).control = .user (.fiber 3) := by decide +kernel
  have hmain : (run.state 14).thread 2 = .main := by decide +kernel
  refine ⟨run, rfl, by decide +kernel, rfl, by decide +kernel, by decide +kernel, hback, ?_⟩
  intro hturns
  have hring : OnRing (run.state 14) 2 :=
    ⟨by decide +kernel, 4, by decide +kernel, 1, by decide +kernel⟩
  obtain ⟨k, hk, hk', hcontrol⟩ :=
    hturns.others 17 (by decide) le_rfl hback 2 hring (by rw [hmain]; decide)
  have hnobody : ∀ k, k < 17 → 14 < k → (run.state k).control ≠ .user .main := by decide +kernel
  exact hnobody k hk' hk (hmain ▸ hcontrol)

end Acos.Fibers
