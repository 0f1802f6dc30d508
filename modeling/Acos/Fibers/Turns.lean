import Acos.Fibers.NoLoss

/-!
# Turns

A run that displaces no fiber is followed, step by step, by a queue that turns. Between two pieces
of code of the program the library executes its own, and this always comes to an end: with the head
of the ring having the turn.
-/

namespace Acos.Fibers

open RoundRobin Transition

variable {Func Data : Type} {s s' : State Func Data} {ring : List Addr} {q : Queue Thread}

/-- The queue is what the scheduler sees of the state. -/
def Queued (s : State Func Data) (q : Queue Thread) : Prop :=
  ∃ ring, Shape s ring ∧ Phase s ring ∧ q = s.queue ring

theorem Queued.step (hqueued : Queued s q) {action : Action Func Data}
    (hdisplaces : ¬ Displaces s action) (hperform : perform action s = some s') :
    ∃ q', Queued s' q' ∧ Step action.event q q' := by
  obtain ⟨ring, hshape, hphase, rfl⟩ := hqueued
  obtain ⟨ring', hshape', hphase', hstep⟩ := perform_step hshape hphase hdisplaces hperform
  exact ⟨s'.queue ring', ⟨ring', hshape', hphase', rfl⟩, hstep⟩

theorem exists_queues (run : Run (fiberSystem Func Data))
    (hdisplaces : ∀ i, i < run.length → ¬ Displaces (run.state i) (run.label i)) :
    ∃ q : Nat → Queue Thread, (∀ i, i ≤ run.length → Queued (run.state i) (q i)) ∧
      ∀ i, i < run.length → Step (run.label i).event (q i) (q (i + 1)) := by
  obtain ⟨ring, hshape, hphase⟩ := Initial.inv run.starts
  apply run.exists_simulation Queued fun label => Step label.event
  · exact ⟨_, ring, hshape, hphase, rfl⟩
  · exact fun i hi q hq => hq.step (hdisplaces i hi) (run.steps i hi)

/-! ### Whose turn it is -/

theorem Queued.status_eq (hqueued : Queued s q) : q.status = s.status := by
  obtain ⟨ring, _, _, rfl⟩ := hqueued
  rfl

theorem Queued.begun_eq (hqueued : Queued s q) : q.begun = s.begun := by
  obtain ⟨ring, _, _, rfl⟩ := hqueued
  rfl

theorem Queued.nodup (hqueued : Queued s q) : q.members.Nodup := by
  obtain ⟨ring, hshape, _, rfl⟩ := hqueued
  exact hshape.threads

/-- What the status of the queue says about the control. -/
def Agrees (s : State Func Data) (q : Queue Thread) : Prop :=
  match q.status with
  | .before => s.first = false ∧ s.control = .user .main
  | .running _ => s.first = true ∧ ∃ x, q.members.head? = some x ∧ s.control = .user x
  | .leaving | .arriving _ => s.first = true ∧ ∀ thread, s.control ≠ .user thread
  | .stopped => ∃ failure, s.control = .halted (.exit failure)

theorem Queued.agrees (hqueued : Queued s q) : Agrees s q := by
  obtain ⟨ring, hshape, hphase, rfl⟩ := hqueued
  have hstatus : (s.queue ring).status = s.status := rfl
  unfold Agrees
  rw [hstatus]
  cases hphase with
  | before hfirst hcontrol =>
      rw [State.status_before hcontrol hfirst]
      exact ⟨hfirst, hcontrol⟩
  | user hfirst hcontrol =>
      rw [State.status_user hcontrol hshape.fibers hfirst]
      exact ⟨hfirst, _, rfl, hcontrol⟩
  | @afterSave head _ hfirst hcontrol =>
      rw [State.status_afterSave hcontrol hshape.fibers]
      cases (s.fiber head).done <;> simp [hfirst, hcontrol]
  | returning hfirst hcontrol =>
      rw [State.status_resume hcontrol hshape.fibers]
      simp [hfirst, hcontrol]
  | switching _ hfirst hcontrol =>
      rw [State.status_resume hcontrol hshape.fibers]
      simp [hfirst, hcontrol]
  | starting hfirst hcontrol =>
      rw [State.status_startFunc hcontrol hshape.fibers]
      simp [hfirst, hcontrol]
  | exited failure hcontrol =>
      rw [State.status_halted hcontrol]
      exact ⟨failure, hcontrol⟩

/-- The head executes code of the program in just the states in which the queue says so. -/
theorem Queued.runs_iff (hqueued : Queued s q) {thread : Thread} :
    q.Runs thread ↔ s.control = .user thread ∧ s.first = true := by
  have hagrees := hqueued.agrees
  unfold Agrees at hagrees
  constructor
  · rintro ⟨⟨marked, hstatus⟩, hhead⟩
    rw [hstatus] at hagrees
    obtain ⟨hfirst, x, hx, hcontrol⟩ := hagrees
    cases hhead.symm.trans hx
    exact ⟨hcontrol, hfirst⟩
  · rintro ⟨hcontrol, hfirst⟩
    cases hstatus : q.status with
    | running marked =>
        rw [hstatus] at hagrees
        obtain ⟨_, x, hx, hcontrol'⟩ := hagrees
        cases hcontrol.symm.trans hcontrol'
        exact ⟨⟨marked, hstatus⟩, hx⟩
    | before | leaving | arriving | stopped => simp_all

/-- As long as main has no slot, all slots are those of fibers. -/
theorem Queued.exists_fiber (hqueued : Queued s q) (hstatus : q.status = .before) {y : Thread}
    (hy : y ∈ q.members) : ∃ stack, y = .fiber stack := by
  have hagrees := hqueued.agrees
  unfold Agrees at hagrees
  rw [hstatus] at hagrees
  obtain ⟨ring, hshape, hphase, rfl⟩ := hqueued
  obtain ⟨a, ha, rfl⟩ := List.mem_map.mp hy
  cases hphase with
  | before _ _ hring => exact ⟨_, State.thread_eq_of_not_hasRun (hring a ha).2⟩
  | user hfirst | afterSave hfirst | returning hfirst | starting hfirst =>
      exact absurd (hfirst.symm.trans hagrees.1) nofun
  | switching _ hfirst => exact absurd (hfirst.symm.trans hagrees.1) nofun
  | exited _ hcontrol => exact absurd (hcontrol.symm.trans hagrees.2) nofun

/-! ### The library comes to an end -/

theorem Queued.exists_internal (hqueued : Queued s q)
    (hstatus : q.status = .leaving ∨ ∃ left, q.status = .arriving left) :
    ∃ next, perform .internal s = some next := by
  have hstatus' := hqueued.status_eq ▸ hstatus
  have hagrees := hqueued.agrees
  unfold Agrees at hagrees
  cases hcontrol : s.control with
  | afterSave | resume | startFunc =>
      simp only [perform, hcontrol]
      exact ⟨_, rfl⟩
  | user => rcases hstatus with hstatus | ⟨left, hstatus⟩ <;> simp [hstatus, hcontrol] at hagrees
  | halted => simp [State.status_halted hcontrol] at hstatus'

theorem not_displaces_internal (s : State Func Data) : ¬ Displaces s .internal := by
  rintro ⟨⟨alloc, heq⟩, _⟩
  exact nomatch heq

/-- An arriving head arrives, and begins if it has not begun yet. -/
theorem Queued.arrives (hqueued : Queued s q) {left : Nat} (hstatus : q.status = .arriving left)
    {x : Thread} {others : List Thread} (hmembers : q.members = x :: others) :
    ∃ n last, execute perform (List.replicate n .internal) s = some last ∧
      last.control = .user x ∧ last.first = true ∧
      last.begun = (if x ∈ s.begun then s.begun else s.begun ++ [x]) ∧
      ∃ q', Queued last q' ∧ q'.members = q.members := by
  induction left using Nat.strong_induction_on generalizing s q with
  | _ left ih =>
      obtain ⟨next, hperform⟩ := hqueued.exists_internal (.inr ⟨left, hstatus⟩)
      obtain ⟨q', hqueued', hstep⟩ := hqueued.step (not_displaces_internal s) hperform
      obtain ⟨hmembers', harrived⟩ := hstep.of_arriving hstatus hmembers
      rw [hqueued.begun_eq, hqueued'.begun_eq] at harrived
      rcases harrived with ⟨left', hless, hstatus', hbegun⟩ | ⟨hrunning, hbegun⟩
      · obtain ⟨n, last, hexecute, hcontrol, hfirst, hlast, q'', hqueued'', hmembers''⟩ :=
          ih left' hless hqueued' hstatus' (hmembers'.trans hmembers)
        refine ⟨n + 1, last, ?_, hcontrol, hfirst, hbegun ▸ hlast, q'', hqueued'',
          hmembers''.trans hmembers'⟩
        rw [List.replicate_succ, execute, hperform]
        exact hexecute
      · have hruns : q'.Runs x := ⟨hrunning, by rw [hmembers', hmembers]; rfl⟩
        obtain ⟨hcontrol, hfirst⟩ := hqueued'.runs_iff.mp hruns
        refine ⟨1, next, ?_, hcontrol, hfirst, ?_, q', hqueued', hmembers'⟩
        · rw [List.replicate_one, execute, hperform]
          rfl
        · rcases hbegun with ⟨hmem, hbegun⟩ | ⟨hmem, hbegun⟩
          · rw [hbegun, if_pos hmem]
          · rw [hbegun, if_neg hmem]

/-- After a thread has left, the next one of the ring arrives. -/
theorem Queued.turns (hqueued : Queued s q) (hstatus : q.status = .leaving)
    {x y : Thread} {others rest : List Thread} (hmembers : q.members = x :: others)
    (hnext : others ++ [x] = y :: rest) :
    ∃ n last, execute perform (List.replicate n .internal) s = some last ∧
      last.control = .user y ∧ last.first = true ∧
      last.begun = (if y ∈ s.begun then s.begun else s.begun ++ [y]) ∧
      ∃ q', Queued last q' ∧ q'.members = others ++ [x] := by
  obtain ⟨next, hperform⟩ := hqueued.exists_internal (.inl hstatus)
  obtain ⟨q', hqueued', hstep⟩ := hqueued.step (not_displaces_internal s) hperform
  obtain ⟨left, rfl⟩ := hstep.of_leaving hstatus hmembers
  have hbegun : next.begun = s.begun := hqueued'.begun_eq.symm.trans hqueued.begun_eq
  obtain ⟨n, last, hexecute, hcontrol, hfirst, hlast, hqueue⟩ := hqueued'.arrives rfl hnext
  refine ⟨n + 1, last, ?_, hcontrol, hfirst, hbegun ▸ hlast, hqueue⟩
  rw [List.replicate_succ, execute, hperform]
  exact hexecute

/-- The library is done in one state only. -/
theorem execute_internal_unique {n m : Nat} {last last' : State Func Data} {thread thread' : Thread}
    (hn : execute perform (List.replicate n .internal) s = some last)
    (hlast : last.control = .user thread)
    (hm : execute perform (List.replicate m .internal) s = some last')
    (hlast' : last'.control = .user thread') : last = last' := by
  have hstuck : ∀ {u : State Func Data} {thread : Thread}, u.control = .user thread →
      perform .internal u = none := fun h => by simp [perform, h]
  induction n generalizing s m with
  | zero =>
      cases hn
      cases m with
      | zero => exact Option.some.inj hm
      | succ m => simp [List.replicate_succ, execute, hstuck hlast] at hm
  | succ n ih =>
      rw [List.replicate_succ, execute] at hn
      obtain ⟨next, hnext, hn⟩ := Option.bind_eq_some_iff.mp hn
      cases m with
      | zero =>
          cases hm
          simp [hstuck hlast'] at hnext
      | succ m =>
          rw [List.replicate_succ, execute, hnext] at hm
          exact ih hn hm

end Acos.Fibers
