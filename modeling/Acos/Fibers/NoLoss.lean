import Acos.Fibers.Preservation

/-!
# No fiber is lost

A fiber that waits for its turn is kept by a node of the ring: the node holds the function and the
data it was spawned with and a context that leads back into it. This holds throughout a run exactly
if main never yields into a ring of two or more nodes before it has a slot of its own. Such a yield
saves the context of main into the slot of the first fiber, and this fiber can then never start.
-/

namespace Acos.Fibers

variable {Func Data : Type} {s s' : State Func Data} {ring : List Addr} {a : Addr}

/-- The node is allocated and reached from `fibers`. -/
def OnRing (s : State Func Data) (a : Addr) : Prop :=
  a ∈ s.live ∧ ∃ head, s.fibers = some head ∧ ∃ j, s.links.next^[j] head = a

/-- A node of the ring resumes the fiber: in `start_func` with its own function and data if it has
never run, and behind its own last `FiberYield` otherwise. -/
def Kept (s : State Func Data) (stack : Nat) (job : Func × Option Data) : Prop :=
  ∃ a, OnRing s a ∧ (s.fiber a).stack = stack ∧
    (s.fiber a).func = some job.1 ∧ (s.fiber a).data = job.2 ∧
    ((¬ s.HasRun (.fiber stack) ∧ (s.fiber a).ctx = .start stack) ∨
      (s.HasRun (.fiber stack) ∧
        ∃ site, (s.fiber a).ctx = .saved (.fiber stack) (s.calls (.fiber stack)) site))

/-- The fibers that wait are kept, and the functions that were called so far are those of distinct
fibers, with the data they were spawned with. -/
structure NoFiberLost (s : State Func Data) : Prop where
  defined : s.control ≠ .halted .undefined
  kept : ∀ running, s.control.thread = some running → ∀ stack job,
    s.spawned stack = some job → stack ∉ s.finished → running ≠ .fiber stack → Kept s stack job
  once : (s.started.map Prod.fst).Nodup
  own : ∀ entry ∈ s.started, s.spawned entry.1 = some entry.2

theorem Wired.onRing (hwired : Wired s ring) (ha : a ∈ ring) : OnRing s a := by
  refine ⟨(hwired.live a).mpr ha, ?_⟩
  cases ring with
  | nil => exact absurd ha List.not_mem_nil
  | cons head rest => exact ⟨head, hwired.fibers, hwired.isRing.exists_iterate ha⟩

/-- Only the node of the running thread may not be parked. -/
theorem Phase.parked_of_ne (hphase : Phase s ring) {running : Thread}
    (hrunning : s.control.thread = some running) (ha : a ∈ ring) (hne : running ≠ s.thread a) :
    Parked s a := by
  cases hphase with
  | before _ _ hring => exact (hring a ha).1
  | user _ hcontrol _ hrest | afterSave _ hcontrol _ _ hrest | returning _ hcontrol _ _ hrest =>
      rw [hcontrol] at hrunning
      rcases List.mem_cons.mp ha with rfl | ha
      · exact absurd (Option.some.inj hrunning).symm hne
      · exact hrest a ha
  | switching _ _ _ hring => exact hring a ha
  | starting _ hcontrol hthread _ hrest =>
      rw [hcontrol] at hrunning
      rcases List.mem_cons.mp ha with rfl | ha
      · exact absurd ((Option.some.inj hrunning).symm.trans hthread.symm) hne
      · exact hrest a ha
  | exited _ hcontrol =>
      rw [hcontrol] at hrunning
      exact absurd hrunning nofun

theorem Phase.defined (hphase : Phase s ring) : s.control ≠ .halted .undefined := by
  cases hphase <;> simp_all

theorem Shape.kept (hshape : Shape s ring) {stack : Nat} {job : Func × Option Data}
    (hjob : s.spawned stack = some job) (ha : a ∈ ring) (hthread : s.thread a = .fiber stack)
    (hparked : Parked s a) : Kept s stack job := by
  obtain ⟨_, rfl⟩ := State.thread_eq_fiber_iff.mp hthread
  obtain ⟨hfunc, hdata⟩ := hshape.own a ha job hjob
  refine ⟨a, hshape.toWired.onRing ha, rfl, hfunc, hdata, ?_⟩
  rw [← hthread]
  rcases hparked.resumes with ⟨hrun, hctx, _⟩ | ⟨hrun, _, hctx⟩
  · exact .inl ⟨hrun, hctx⟩
  · exact .inr ⟨hrun, hctx⟩

theorem Inv.noFiberLost (hinv : Inv s) : NoFiberLost s := by
  obtain ⟨ring, hshape, hphase⟩ := hinv
  refine ⟨hphase.defined, ?_, hshape.started_nodup, hshape.started_own⟩
  intro running hrunning stack job hjob hfinished hne
  obtain ⟨a, ha, hthread⟩ :=
    List.mem_map.mp (hshape.present stack (by rw [hjob]; rfl) hfinished)
  exact hshape.kept hjob ha hthread (hphase.parked_of_ne hrunning ha (hthread ▸ hne))

/-- The yield that displaces a fiber loses it at once. -/
theorem Inv.not_displaces (hinv : Inv s) {action : Action Func Data}
    (hperform : perform action s = some s') (hkept : NoFiberLost s') :
    ¬ Displaces s action := by
  rintro ⟨⟨alloc, rfl⟩, hfirst, head, hhead, hnext⟩
  obtain ⟨ring, hshape, hphase⟩ := hinv
  cases hphase with
  | before _ hcontrol hring =>
      obtain ⟨rest, rfl⟩ : ∃ rest, ring = head :: rest := by
        have hring' := hshape.fibers
        rw [hhead] at hring'
        exact List.head?_eq_some_iff.mp hring'.symm
      have hrun := (hring head List.mem_cons_self).2
      obtain ⟨hsome, _⟩ :=
        State.thread_eq_fiber_iff.mp (State.thread_eq_of_not_hasRun hrun)
      obtain ⟨job, hjob⟩ := Option.isSome_iff_exists.mp hsome
      have hslot : s.thread head ∈ (head :: rest).map s.thread :=
        List.mem_map_of_mem List.mem_cons_self
      rw [State.thread_eq_of_not_hasRun hrun] at hslot hrun
      simp only [perform, hcontrol] at hperform
      obtain ⟨_, hsettle⟩ := Option.ite_none_right_eq_some.mp hperform
      rw [fiberYield_cons hshape.toWired, if_neg fun h => hnext h.2,
        saveCurrent_ok (hshape.toWired.called .main)] at hsettle
      cases hsettle
      obtain ⟨a, ⟨hlive, _⟩, hstack, _, _, hctx⟩ :=
        hkept.kept .main rfl (s.fiber head).stack job hjob
          (fun hmem => hshape.unfinished _ hmem hslot) nofun
      rcases List.mem_cons.mp ((hshape.live a).mp hlive) with rfl | ha
      · -- the slot of the fiber holds the context of main
        rcases hctx with ⟨_, hctx⟩ | ⟨hran, _⟩
        · simp [State.savedAt, Fiber.setCtx] at hctx
        · exact hrun hran
      · have hstack' : (s.fiber a).stack = (s.fiber head).stack := by
          rw [← hstack]
          exact congrArg Fiber.stack
            (State.modify_fiber_of_ne (s.called .main) (hshape.ne_of_mem ha) _).symm
        exact hshape.thread_ne ha (State.thread_congr_stack hstack')
  | user hother | afterSave hother | returning hother | starting hother =>
      simp [hfirst] at hother
  | switching _ hother => simp [hfirst] at hother
  | exited _ hcontrol => simp [perform, hcontrol] at hperform

/-- **No fiber is lost.** In every run, no fiber is lost in any state exactly if main never yields
into a ring of two or more nodes before it has a slot. -/
theorem noFiberLost_iff (run : Transition.Run (fiberSystem Func Data)) :
    (∀ i, i ≤ run.length → NoFiberLost (run.state i)) ↔
      ∀ i, i < run.length → ¬ Displaces (run.state i) (run.label i) := by
  constructor
  · intro hkept
    have hinv : ∀ i, i ≤ run.length → Inv (run.state i) := by
      refine run.induction (Initial.inv run.starts) fun i hi hinv => ?_
      exact perform_inv hinv (hinv.not_displaces (run.steps i hi) (hkept (i + 1) hi))
        (run.steps i hi)
    exact fun i hi => (hinv i hi.le).not_displaces (run.steps i hi) (hkept (i + 1) hi)
  · intro hdisplaces i hi
    refine Inv.noFiberLost (run.induction (P := fun i => Inv (run.state i))
      (Initial.inv run.starts) ?_ i hi)
    exact fun i hi hinv => perform_inv hinv (hdisplaces i hi) (run.steps i hi)

/-- The memory of a program that has just started. -/
def freshState (Func Data : Type) : State Func Data where
  links := ⟨id, id⟩
  fiber := fun _ => .new 0
  live := ∅
  fibers := none
  first := false
  control := .user .main
  created := 0
  calls := fun _ => 0
  spawned := fun _ => none
  started := []
  finished := ∅

theorem freshState_initial : Initial (freshState Func Data) :=
  ⟨rfl, rfl, rfl, rfl, rfl, fun _ => rfl, fun _ => rfl, rfl, rfl⟩

/-- Main spawns two fibers and yields: the slot of the first one holds the context of main, although
the fiber has never run. -/
theorem noFiberLost_fails_after_two_spawns :
    ∃ run : Transition.Run (fiberSystem Nat Nat), run.length = 3 ∧
      (run.state 3).spawned 0 = some (10, none) ∧ (run.state 3).started = [] ∧
      ((run.state 3).fiber 1).stack = 0 ∧
      ((run.state 3).fiber 1).ctx = .saved .main 1 .current ∧ ¬ NoFiberLost (run.state 3) := by
  let run : Transition.Run (fiberSystem Nat Nat) :=
    .ofExecute (freshState Nat Nat) freshState_initial
      [.fiberSpawn 10 none (.ok 1), .fiberSpawn 20 none (.ok 2), .fiberYield (.ok 3)] .internal
      (by decide +kernel)
  refine ⟨run, rfl, by decide +kernel, by decide +kernel, by decide +kernel, by decide +kernel, ?_⟩
  intro hkept
  obtain ⟨a, ⟨hlive, _⟩, hstack, _, _, hctx⟩ :=
    hkept.kept .main (by decide +kernel) 0 (10, none) (by decide +kernel) (by decide +kernel) nofun
  have hslot : ∀ a ∈ (run.state 3).live, ((run.state 3).fiber a).stack = 0 →
      ((run.state 3).fiber a).ctx ≠ .start 0 := by decide +kernel
  have hstarted : (run.state 3).started = [] := by decide +kernel
  rcases hctx with ⟨_, hctx⟩ | ⟨⟨entry, hmem, _⟩, _⟩
  · exact hslot a hlive hstack hctx
  · rw [hstarted] at hmem
    exact absurd hmem List.not_mem_nil

end Acos.Fibers
