import Mathlib.Data.Fintype.Card
import Mathlib.Data.Finset.Card
import Mathlib.Order.WellFounded

/-!
# Labelled transition systems

A system is a set of initial states and a labelled step relation. A run records the states and the
labels of a finite execution, so that a statement can speak about two moments of it. Every safety
result of the development is one of the two rules below: an invariant holds in every reachable
state, or along every run whose steps meet a side condition.
-/

namespace Transition

variable {State Label : Type}

structure System (State Label : Type) where
  init : State → Prop
  step : Label → State → State → Prop

/-- The states an execution can be in. -/
inductive Reachable (sys : System State Label) : State → Prop where
  | init {state : State} (hinit : sys.init state) : Reachable sys state
  | step {state next : State} (label : Label) (hreach : Reachable sys state)
      (hstep : sys.step label state next) : Reachable sys next

theorem Reachable.invariant {sys : System State Label} {Inv : State → Prop}
    (hinit : ∀ state, sys.init state → Inv state)
    (hstep : ∀ label state next, Inv state → sys.step label state next → Inv next)
    {state : State} (hreach : Reachable sys state) : Inv state := by
  induction hreach with
  | init hstart => exact hinit _ hstart
  | step label _ hnext ih => exact hstep label _ _ ih hnext

/-- The system of a step function: a label that has no effect on a state is not enabled there. -/
def System.ofFunction (init : State → Prop) (step : Label → State → Option State) :
    System State Label where
  init := init
  step label state next := step label state = some next

/-- The labels are executed one after another. -/
def execute (step : Label → State → Option State) : List Label → State → Option State
  | [], state => some state
  | label :: labels, state => (step label state).bind (execute step labels)

theorem Reachable.execute {init : State → Prop} {step : Label → State → Option State}
    {labels : List Label} {state last : State}
    (hreach : Reachable (System.ofFunction init step) state)
    (hexecute : execute step labels state = some last) :
    Reachable (System.ofFunction init step) last := by
  induction labels generalizing state with
  | nil =>
      cases hexecute
      exact hreach
  | cons label labels ih =>
      obtain ⟨next, hnext, hrest⟩ := Option.bind_eq_some_iff.mp hexecute
      exact ih (.step label hreach hnext) hrest

/-- A finite execution. The functions are only meaningful up to `length`. -/
structure Run (sys : System State Label) where
  length : Nat
  state : Nat → State
  label : Nat → Label
  starts : sys.init (state 0)
  steps : ∀ i, i < length → sys.step (label i) (state i) (state (i + 1))

namespace Run

variable {sys : System State Label} (run : Run sys)

/-- Induction along a run: what every step carries over holds at every moment. -/
theorem induction {P : Nat → Prop} (hzero : P 0)
    (hsucc : ∀ i, i < run.length → P i → P (i + 1)) :
    ∀ i, i ≤ run.length → P i := by
  intro i
  induction i with
  | zero => exact fun _ => hzero
  | succ i ih => exact fun hi => hsucc i hi (ih (Nat.le_of_succ_le hi))

theorem reachable : ∀ i, i ≤ run.length → Reachable sys (run.state i) := by
  refine run.induction (.init run.starts) ?_
  intro i hi hreach
  exact .step (run.label i) hreach (run.steps i hi)

theorem invariant {Inv : State → Prop}
    (hinit : ∀ state, sys.init state → Inv state)
    (hstep : ∀ label state next, Inv state → sys.step label state next → Inv next) :
    ∀ i, i ≤ run.length → Inv (run.state i) := fun i hi =>
  (run.reachable i hi).invariant hinit hstep

/-- Forward simulation: a run is followed by a sequence of abstract states, one for each moment. -/
theorem exists_simulation {Abstract : Type} (Rel : State → Abstract → Prop)
    (Next : Label → Abstract → Abstract → Prop) (hstart : ∃ a, Rel (run.state 0) a)
    (hnext : ∀ i, i < run.length → ∀ a, Rel (run.state i) a →
      ∃ a', Rel (run.state (i + 1)) a' ∧ Next (run.label i) a a') :
    ∃ seq : Nat → Abstract, (∀ i, i ≤ run.length → Rel (run.state i) (seq i)) ∧
      ∀ i, i < run.length → Next (run.label i) (seq i) (seq (i + 1)) := by
  obtain ⟨start, hstart⟩ := hstart
  have hstep : ∀ i a, ∃ a', i < run.length → Rel (run.state i) a →
      Rel (run.state (i + 1)) a' ∧ Next (run.label i) a a' := by
    intro i a
    by_cases h : i < run.length ∧ Rel (run.state i) a
    · obtain ⟨a', ha'⟩ := hnext i h.1 a h.2
      exact ⟨a', fun _ _ => ha'⟩
    · exact ⟨a, fun hi ha => absurd ⟨hi, ha⟩ h⟩
  choose next hstep using hstep
  let seq : Nat → Abstract := fun i => Nat.rec start next i
  have hrel : ∀ i, i ≤ run.length → Rel (run.state i) (seq i) :=
    run.induction hstart fun i hi ha => (hstep i (seq i) hi ha).1
  exact ⟨seq, hrel, fun i hi => (hstep i (seq i) hi (hrel i hi.le)).2⟩

/-- What the steps from the moment `j` to the moment `k` give, one after the other. -/
def collect {α : Type} (f : State → Label → List α) (j k : Nat) : List α :=
  (List.range' j (k - j)).flatMap fun m => f (run.state m) (run.label m)

@[simp]
theorem collect_self {α : Type} (f : State → Label → List α) (j : Nat) : run.collect f j j = [] := by
  rw [collect, Nat.sub_self]
  rfl

theorem collect_succ {α : Type} (f : State → Label → List α) {j k : Nat} (hjk : j ≤ k) :
    run.collect f j (k + 1) = run.collect f j k ++ f (run.state k) (run.label k) := by
  rw [collect, Nat.sub_add_comm hjk, List.range'_concat, List.flatMap_append, List.flatMap_singleton,
    Nat.one_mul, Nat.add_sub_cancel' hjk]
  rfl

end Run

theorem execute_append (step : Label → State → Option State) (first second : List Label)
    (state : State) :
    execute step (first ++ second) state
      = (execute step first state).bind (execute step second) := by
  induction first generalizing state with
  | nil => rfl
  | cons label first ih =>
      simp only [List.cons_append, execute, Option.bind_assoc]
      exact congrArg _ (funext fun next => ih next)

/-- A system in which some step brings every unfinished state closer to its end can be brought to
its end from every state. -/
theorem exists_execute_of_progress {step : Label → State → Option State} {Inv Done : State → Prop}
    (work : State → Nat)
    (hstep : ∀ label state next, Inv state → step label state = some next → Inv next)
    (hprogress : ∀ state, Inv state → ¬Done state →
      ∃ label next, step label state = some next ∧ work next < work state)
    {state : State} (hinv : Inv state) :
    ∃ labels last, execute step labels state = some last ∧ Done last := by
  induction hwork : work state using Nat.strong_induction_on generalizing state with
  | _ n ih =>
      by_cases hdone : Done state
      · exact ⟨[], state, rfl, hdone⟩
      · obtain ⟨label, next, hnext, hless⟩ := hprogress state hinv hdone
        obtain ⟨labels, last, hexecute, hlast⟩ :=
          ih (work next) (hwork ▸ hless) (hstep label state next hinv hnext) rfl
        refine ⟨label :: labels, last, ?_, hlast⟩
        rw [execute, hnext]
        exact hexecute

/-- A system whose steps lower a well-founded measure does not go on for ever. -/
theorem not_forever {step : Label → State → Option State} {Inv : State → Prop}
    {Allowed : Label → State → Prop} {Measure : Type} {less : Measure → Measure → Prop}
    (hless : WellFounded less) (measure : State → Measure)
    (hstep : ∀ label state next, Allowed label state → Inv state → step label state = some next →
      Inv next ∧ less (measure next) (measure state))
    (label : Nat → Label) (state : Nat → State) (hinv : Inv (state 0)) :
    ¬∀ k, Allowed (label k) (state k) ∧ step (label k) (state k) = some (state (k + 1)) := by
  intro hforever
  have hnext : ∀ k, Inv (state k) →
      Inv (state (k + 1)) ∧ less (measure (state (k + 1))) (measure (state k)) := fun k hk =>
    hstep (label k) (state k) (state (k + 1)) (hforever k).1 hk (hforever k).2
  have hinvs : ∀ k, Inv (state k) := by
    intro k
    induction k with
    | zero => exact hinv
    | succ k ih => exact (hnext k ih).1
  exact (wellFounded_iff_isEmpty_descending_chain.mp hless).false
    ⟨fun k => measure (state k), fun k => (hnext k (hinvs k)).2⟩

/-- The run that executes a list of labels. -/
def Run.ofExecute {init : State → Prop} {step : Label → State → Option State} (start : State)
    (hstart : init start) (labels : List Label) (idle : Label)
    (hexecute : (execute step labels start).isSome = true) :
    Run (System.ofFunction init step) where
  length := labels.length
  state i := (execute step (labels.take i) start).getD start
  label i := labels.getD i idle
  starts := hstart
  steps i hi := by
    have htake : labels.take (i + 1) = labels.take i ++ [labels.getD i idle] := by
      rw [List.take_add_one, List.getD_eq_getElem?_getD, List.getElem?_eq_getElem hi]
      rfl
    change step (labels.getD i idle) _ = some _
    rw [← List.take_append_drop (i + 1) labels, execute_append, htake, execute_append] at hexecute
    rw [htake, execute_append]
    generalize labels.getD i idle = label at hexecute ⊢
    cases hfirst : execute step (labels.take i) start with
    | none => simp [hfirst] at hexecute
    | some state =>
        cases hnext : step label state with
        | none => simp [hfirst, execute, hnext] at hexecute
        | some next => simp [execute, hnext]

end Transition
