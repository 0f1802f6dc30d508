import Mathlib.Data.List.Basic

/-!
# Programs that call an environment

A program is a tree of calls: each node makes one call and goes on with the reply. An environment
answers from the calls made so far, or never answers, which is how a call that does not return is
expressed. What a program does is the list of the calls it makes.

A call such as `fork` has a second process go on from it with another reply. The programs of these
processes are collected as alternatives of the run.
-/

namespace Program

variable {Call : Type} {Reply : Call → Type} {α β γ : Type}

inductive Prog {Call : Type} (Reply : Call → Type) (α : Type) where
  | pure (value : α)
  | perform (call : Call) (next : Reply call → Prog Reply α)

def Prog.bind : Prog Reply α → (α → Prog Reply β) → Prog Reply β
  | .pure value, f => f value
  | .perform call next, f => .perform call fun reply => (next reply).bind f

instance : Monad (Prog Reply) where
  pure := .pure
  bind := .bind

/-- The program that makes one call. -/
def call (c : Call) : Prog Reply (Reply c) := .perform c .pure

/-- A program that is done makes no call. -/
theorem Prog.pure_ne_perform {value : α} {c : Call} {next : Reply c → Prog Reply α} :
    Prog.pure value ≠ Prog.perform c next := by
  intro heq
  cases heq

@[simp] theorem pure_bind (value : α) (f : α → Prog Reply β) : (pure value >>= f) = f value := rfl

@[simp] theorem Prog.pure_bind (value : α) (f : α → Prog Reply β) :
    (Prog.pure value >>= f) = f value := rfl

@[simp] theorem perform_bind (c : Call) (next : Reply c → Prog Reply α) (f : α → Prog Reply β) :
    (Prog.perform c next >>= f) = .perform c fun reply => next reply >>= f := rfl

@[simp] theorem call_bind (c : Call) (f : Reply c → Prog Reply β) :
    (call c >>= f) = .perform c f := rfl

@[simp] theorem bind_assoc (p : Prog Reply α) (f : α → Prog Reply β) (g : β → Prog Reply γ) :
    ((p >>= f) >>= g) = p >>= fun value => f value >>= g := by
  induction p with
  | pure value => rfl
  | perform c next ih => exact congrArg (Prog.perform c) (funext ih)

/-! ## Runs -/

abbrev Event (Reply : Call → Type) := (c : Call) × Reply c

abbrev Env (Reply : Call → Type) := List (Event Reply) → (c : Call) → Option (Reply c)

/-- The value of a program that has ended, or the call that did not return. -/
inductive Outcome (Call α : Type) where
  | returned (value : α)
  | stopped (call : Call)

structure Execution (Reply : Call → Type) (α : Type) where
  events : List (Event Reply)
  outcome : Outcome Call α

/-- What the program does after the events of the past. -/
def Prog.run (env : Env Reply) : List (Event Reply) → Prog Reply α → Execution Reply α
  | _, .pure value => ⟨[], .returned value⟩
  | past, .perform c next =>
      match env past c with
      | none => ⟨[], .stopped c⟩
      | some reply =>
          let rest := (next reply).run env (past ++ [⟨c, reply⟩])
          ⟨⟨c, reply⟩ :: rest.events, rest.outcome⟩

/-- The calls made, the one that did not return included. -/
def Execution.calls (execution : Execution Reply α) : List Call :=
  execution.events.map Sigma.fst ++
    match execution.outcome with
    | .returned _ => []
    | .stopped c => [c]

/-- The program ends with the value after the events. -/
def Returns (env : Env Reply) (past : List (Event Reply)) (p : Prog Reply α)
    (events : List (Event Reply)) (value : α) : Prop :=
  p.run env past = ⟨events, .returned value⟩

variable {env : Env Reply} {past events : List (Event Reply)} {p : Prog Reply α}
  {f : α → Prog Reply β} {value : α} {c : Call}

theorem Returns.pure (env : Env Reply) (past : List (Event Reply)) (value : α) :
    Returns env past (pure value) [] value := rfl

theorem Returns.perform {next : Reply c → Prog Reply α} {reply : Reply c}
    (hreply : env past c = some reply)
    (hnext : Returns env (past ++ [⟨c, reply⟩]) (next reply) events value) :
    Returns env past (.perform c next) (⟨c, reply⟩ :: events) value := by
  unfold Returns at hnext ⊢
  simp only [Prog.run, hreply, hnext]

theorem Returns.call {reply : Reply c} (hreply : env past c = some reply) :
    Returns env past (Program.call c) [⟨c, reply⟩] reply :=
  .perform hreply (.pure env _ reply)

theorem run_perform {next : Reply c → Prog Reply α} {reply : Reply c}
    (hreply : env past c = some reply) :
    (Prog.perform c next).run env past =
      ⟨⟨c, reply⟩ :: ((next reply).run env (past ++ [⟨c, reply⟩])).events,
        ((next reply).run env (past ++ [⟨c, reply⟩])).outcome⟩ := by
  simp only [Prog.run, hreply]

theorem Returns.of_perform {next : Reply c → Prog Reply α}
    (hreturns : Returns env past (.perform c next) events value) :
    ∃ reply rest, env past c = some reply ∧ events = ⟨c, reply⟩ :: rest ∧
      Returns env (past ++ [⟨c, reply⟩]) (next reply) rest value := by
  unfold Returns at hreturns
  cases hreply : env past c with
  | none => simp [Prog.run, hreply] at hreturns
  | some reply =>
      rw [run_perform hreply, Execution.mk.injEq] at hreturns
      refine ⟨reply, _, rfl, hreturns.1.symm, ?_⟩
      unfold Returns
      rw [← hreturns.2]

/-- The rest of a program runs after the events of its beginning. -/
theorem Returns.run_bind (hreturns : Returns env past p events value) :
    (p >>= f).run env past = ⟨events ++ ((f value).run env (past ++ events)).events,
      ((f value).run env (past ++ events)).outcome⟩ := by
  induction p generalizing past events with
  | pure value' =>
      cases hreturns
      simp
  | perform c next ih =>
      obtain ⟨reply, rest, hreply, rfl, hnext⟩ := hreturns.of_perform
      rw [perform_bind, run_perform hreply, ih reply hnext]
      simp

theorem Returns.bind {events' : List (Event Reply)} {value' : β}
    (hreturns : Returns env past p events value)
    (hrest : Returns env (past ++ events) (f value) events' value') :
    Returns env past (p >>= f) (events ++ events') value' := by
  unfold Returns at hrest
  unfold Returns
  rw [hreturns.run_bind, hrest]

/-! ## The calls of a run -/

theorem Returns.calls_bind (hreturns : Returns env past p events value) :
    ((p >>= f).run env past).calls =
      events.map Sigma.fst ++ ((f value).run env (past ++ events)).calls := by
  rw [hreturns.run_bind]
  simp [Execution.calls]

theorem Returns.calls (hreturns : Returns env past p events value) :
    (p.run env past).calls = events.map Sigma.fst := by
  rw [hreturns]
  simp [Execution.calls]

theorem calls_perform {next : Reply c → Prog Reply α} {reply : Reply c}
    (hreply : env past c = some reply) :
    ((Prog.perform c next).run env past).calls =
      c :: ((next reply).run env (past ++ [⟨c, reply⟩])).calls := by
  rw [run_perform hreply]
  rfl

theorem mem_calls_perform (next : Reply c → Prog Reply α) :
    c ∈ ((Prog.perform c next).run env past).calls := by
  cases hreply : env past c with
  | none => simp [Prog.run, hreply, Execution.calls]
  | some reply => simp [calls_perform hreply]

/-- The program makes only calls of this kind, whatever the replies are. -/
def Prog.Only (P : Call → Prop) : Prog Reply α → Prop
  | .pure _ => True
  | .perform c next => P c ∧ ∀ reply, (next reply).Only P

theorem Prog.Only.bind {P : Call → Prop} (hp : p.Only P) (hf : ∀ value, (f value).Only P) :
    (p >>= f).Only P := by
  induction p with
  | pure value => exact hf value
  | perform c next ih => exact ⟨hp.1, fun reply => ih reply (hp.2 reply)⟩

theorem Prog.Only.call {P : Call → Prop} (hc : P c) :
    (Program.call c : Prog Reply (Reply c)).Only P :=
  ⟨hc, fun _ => trivial⟩

theorem Prog.Only.call_bind {P : Call → Prop} {next : Reply c → Prog Reply β} (hc : P c)
    (hnext : ∀ reply, (next reply).Only P) : (Program.call c >>= next).Only P := ⟨hc, hnext⟩

theorem Prog.Only.mono {P Q : Call → Prop} (hp : p.Only P) (hPQ : ∀ c, P c → Q c) : p.Only Q := by
  induction p with
  | pure value => trivial
  | perform c next ih => exact ⟨hPQ c hp.1, fun reply => ih reply (hp.2 reply)⟩

theorem Prog.Only.calls {P : Call → Prop} (hp : p.Only P) (env : Env Reply)
    (past : List (Event Reply)) : ∀ c ∈ (p.run env past).calls, P c := by
  induction p generalizing past with
  | pure value => simp [Prog.run, Execution.calls]
  | perform c next ih =>
      cases hreply : env past c with
      | none => simpa [Prog.run, hreply, Execution.calls] using hp.1
      | some reply =>
          rw [calls_perform hreply]
          intro d hd
          rcases List.mem_cons.mp hd with rfl | hd
          · exact hp.1
          · exact ih reply (hp.2 reply) _ d hd

/-! ## Alternatives -/

/-- The programs that go on besides the run, each with the events in its past: `other` tells for a
call and its reply what another process gets for it. -/
def Prog.alternatives (other : (c : Call) → Reply c → Option (Reply c)) (env : Env Reply) :
    List (Event Reply) → Prog Reply α → List (List (Event Reply) × Prog Reply α)
  | _, .pure _ => []
  | past, .perform c next =>
      match env past c with
      | none => []
      | some reply =>
          ((other c reply).map fun reply' => (past ++ [⟨c, reply'⟩], next reply')).toList ++
            (next reply).alternatives other env (past ++ [⟨c, reply⟩])

variable {other : (c : Call) → Reply c → Option (Reply c)}

theorem alternatives_perform {next : Reply c → Prog Reply α} {reply : Reply c}
    (hreply : env past c = some reply) :
    (Prog.perform c next).alternatives other env past =
      ((other c reply).map fun reply' => (past ++ [⟨c, reply'⟩], next reply')).toList ++
        (next reply).alternatives other env (past ++ [⟨c, reply⟩]) := by
  simp only [Prog.alternatives, hreply]

/-- A program whose calls have no second reply has no alternatives. -/
theorem alternatives_eq_nil (hp : p.Only fun c => ∀ reply, other c reply = none) (env : Env Reply)
    (past : List (Event Reply)) : p.alternatives other env past = [] := by
  induction p generalizing past with
  | pure value => rfl
  | perform c next ih =>
      cases hreply : env past c with
      | none => simp only [Prog.alternatives, hreply]
      | some reply =>
          rw [alternatives_perform hreply, hp.1 reply, ih reply (hp.2 reply)]
          rfl

/-- Behind a beginning without alternatives, they are those of the rest. -/
theorem Returns.alternatives_bind (hreturns : Returns env past p events value)
    (hp : p.Only fun c => ∀ reply, other c reply = none) :
    (p >>= f).alternatives other env past =
      (f value).alternatives other env (past ++ events) := by
  induction p generalizing past events with
  | pure value' =>
      cases hreturns
      simp
  | perform c next ih =>
      obtain ⟨reply, rest, hreply, rfl, hnext⟩ := hreturns.of_perform
      rw [perform_bind, alternatives_perform hreply, hp.1 reply, ih reply hnext (hp.2 reply)]
      simp

/-! ## Calls with one reply -/

/-- The program without the calls that always get the same reply. -/
def Prog.erase (fixed : (c : Call) → Option (Reply c)) : Prog Reply α → Prog Reply α
  | .pure value => .pure value
  | .perform c next =>
      match fixed c with
      | some reply => (next reply).erase fixed
      | none => .perform c fun reply => (next reply).erase fixed

section Erase

variable {fixed : (c : Call) → Option (Reply c)}

theorem erase_perform_some {next : Reply c → Prog Reply α} {reply : Reply c}
    (hfixed : fixed c = some reply) :
    (Prog.perform c next).erase fixed = (next reply).erase fixed := by
  rw [Prog.erase, hfixed]

theorem erase_perform_none {next : Reply c → Prog Reply α} (hfixed : fixed c = none) :
    (Prog.perform c next).erase fixed = .perform c fun reply => (next reply).erase fixed := by
  rw [Prog.erase, hfixed]

theorem erase_bind (p : Prog Reply α) (f : α → Prog Reply β) :
    (p >>= f).erase fixed = p.erase fixed >>= fun value => (f value).erase fixed := by
  induction p with
  | pure value => rfl
  | perform c next ih =>
      rw [perform_bind]
      cases hfixed : fixed c with
      | none =>
          rw [erase_perform_none hfixed, erase_perform_none hfixed, perform_bind]
          exact congrArg (Prog.perform c) (funext ih)
      | some reply => rw [erase_perform_some hfixed, erase_perform_some hfixed, ih]

theorem erase_call_bind (hfixed : fixed c = none) (f : Reply c → Prog Reply β) :
    (call c >>= f).erase fixed = call c >>= fun reply => (f reply).erase fixed :=
  erase_perform_none hfixed

theorem erase_call_bind_fixed {reply : Reply c} (hfixed : fixed c = some reply)
    (f : Reply c → Prog Reply β) : (call c >>= f).erase fixed = (f reply).erase fixed :=
  erase_perform_some hfixed

/-- Nothing is left of calls whose replies are known. -/
theorem erase_of_only {p : Prog Reply Unit} (hp : p.Only fun c => fixed c ≠ none) :
    p.erase fixed = pure () := by
  induction p with
  | pure value => rfl
  | perform c next ih =>
      obtain ⟨reply, hfixed⟩ := Option.ne_none_iff_exists'.mp hp.1
      rw [erase_perform_some hfixed, ih reply (hp.2 reply)]

/-- The environment that gives these replies, and answers the other calls from those made before. -/
def Env.fixing (fixed : (c : Call) → Option (Reply c)) (env : Env Reply) : Env Reply :=
  fun past c => (fixed c).or (env (past.filter fun event => (fixed event.1).isNone) c)

/-- The other calls are those of the program without the calls that always get the same reply. -/
theorem calls_erase (env : Env Reply) (p : Prog Reply α) (past : List (Event Reply)) :
    ((p.run (env.fixing fixed) past).calls.filter fun c => (fixed c).isNone)
      = ((p.erase fixed).run env (past.filter fun event => (fixed event.1).isNone)).calls := by
  induction p generalizing past with
  | pure value => rfl
  | perform c next ih =>
      cases hfixed : fixed c with
      | some reply =>
          have hreply : env.fixing fixed past c = some reply := by
            rw [Env.fixing, hfixed, Option.some_or]
          rw [calls_perform hreply, erase_perform_some hfixed,
            List.filter_cons_of_neg (by simp [hfixed]), ih reply, List.filter_append,
            List.filter_cons_of_neg (by simp [hfixed]), List.filter_nil, List.append_nil]
      | none =>
          have hreply : env.fixing fixed past c
              = env (past.filter fun event => (fixed event.1).isNone) c := by
            rw [Env.fixing, hfixed, Option.none_or]
          rw [erase_perform_none hfixed]
          cases henv : env (past.filter fun event => (fixed event.1).isNone) c with
          | none => simp [Prog.run, hreply, henv, Execution.calls, hfixed]
          | some reply =>
              rw [calls_perform (hreply.trans henv), calls_perform henv,
                List.filter_cons_of_pos (by simp [hfixed]), ih reply, List.filter_append,
                List.filter_cons_of_pos (by simp [hfixed]), List.filter_nil]

end Erase

/-! ## Handlers -/

/-- The program runs to its end over an environment with a state: each call has some reply that the
environment can give in its state, and leaves a state of it. -/
def Prog.Runs {State : Type} (handles : (c : Call) → State → Reply c → State → Prop) :
    Prog Reply α → State → α → State → Prop
  | .pure value, state, value', state' => value' = value ∧ state' = state
  | .perform c next, state, value', state' =>
      ∃ reply mid, handles c state reply mid ∧ (next reply).Runs handles mid value' state'

section Handlers

variable {State : Type} {handles : (c : Call) → State → Reply c → State → Prop}
  {state state' : State}

theorem Prog.runs_call {reply : Reply c} :
    (call c : Prog Reply (Reply c)).Runs handles state reply state' ↔
      handles c state reply state' := by
  constructor
  · rintro ⟨_, _, hhandles, rfl, rfl⟩
    exact hhandles
  · intro hhandles
    exact ⟨reply, state', hhandles, rfl, rfl⟩

theorem Prog.runs_bind {value' : β} :
    (p >>= f).Runs handles state value' state' ↔
      ∃ value mid, p.Runs handles state value mid ∧ (f value).Runs handles mid value' state' := by
  induction p generalizing state with
  | pure value =>
      constructor
      · intro hruns
        exact ⟨value, state, ⟨rfl, rfl⟩, hruns⟩
      · rintro ⟨_, _, ⟨rfl, rfl⟩, hruns⟩
        exact hruns
  | perform c next ih =>
      simp only [perform_bind, Prog.Runs, ih]
      constructor
      · rintro ⟨reply, mid, hhandles, value, last, hnext, hrest⟩
        exact ⟨value, last, ⟨reply, mid, hhandles, hnext⟩, hrest⟩
      · rintro ⟨value, last, ⟨reply, mid, hhandles, hnext⟩, hrest⟩
        exact ⟨reply, mid, hhandles, value, last, hnext, hrest⟩

end Handlers

/-! ## Specifications of calls -/

section Specifications

variable {Ghost : Type} {spec : (c : Call) → Ghost → (Reply c → Ghost → Prop) → Prop}
  {post : α → Ghost → Prop} {g : Ghost}

/-- The program meets the specification of each call it makes, and what it returns meets `post`. The
specification of a call tells in which states it may be made, and for which replies and states the
rest of the program is to be right. -/
def Prog.Ensures (spec : (c : Call) → Ghost → (Reply c → Ghost → Prop) → Prop)
    (post : α → Ghost → Prop) : Prog Reply α → Ghost → Prop
  | .pure value, g => post value g
  | .perform c next, g => spec c g fun reply g' => (next reply).Ensures spec post g'

theorem Prog.ensures_bind {post : β → Ghost → Prop} :
    (p >>= f).Ensures spec post g ↔
      p.Ensures spec (fun value g' => (f value).Ensures spec post g') g := by
  induction p generalizing g with
  | pure value => exact Iff.rfl
  | perform c next ih =>
      rw [perform_bind, Prog.Ensures, Prog.Ensures]
      simp only [ih]

/-- The specification that asks for the rest to be right after each reply that is possible. -/
abbrev afterEach {State : Type} (handles : (c : Call) → State → Reply c → State → Prop) (c : Call)
    (state : State) (Q : Reply c → State → Prop) : Prop :=
  ∀ reply state', handles c state reply state' → Q reply state'

/-- What it ensures holds at the end of every run. -/
theorem Prog.Ensures.of_runs {handles : (c : Call) → Ghost → Reply c → Ghost → Prop} {g' : Ghost}
    (hp : p.Ensures (afterEach handles) post g) (hruns : p.Runs handles g value g') :
    post value g' := by
  induction p generalizing g with
  | pure value' =>
      obtain ⟨rfl, rfl⟩ := hruns
      exact hp
  | perform c next ih =>
      obtain ⟨reply, mid, hhandles, hnext⟩ := hruns
      exact ih reply (hp reply mid hhandles) hnext

/-- The value is the result of the program for some of the replies to its calls. -/
def Prog.Yields : Prog Reply α → α → Prop
  | .pure value, result => value = result
  | .perform _ next, result => ∃ reply, (next reply).Yields result

theorem Prog.yields_bind {result : β} :
    (p >>= f).Yields result ↔ ∃ value, p.Yields value ∧ (f value).Yields result := by
  induction p with
  | pure value => exact ⟨fun h => ⟨value, rfl, h⟩, fun ⟨_, heq, h⟩ => heq ▸ h⟩
  | perform c next ih =>
      rw [perform_bind, Prog.Yields]
      constructor
      · rintro ⟨reply, hyields⟩
        obtain ⟨value, hvalue, hresult⟩ := (ih reply).mp hyields
        exact ⟨value, ⟨reply, hvalue⟩, hresult⟩
      · rintro ⟨value, ⟨reply, hvalue⟩, hresult⟩
        exact ⟨reply, (ih reply).mpr ⟨value, hvalue, hresult⟩⟩

theorem Prog.not_yields_none {result : β} :
    ¬ (p >>= fun _ => (pure none : Prog Reply (Option β))).Yields (some result) := by
  intro hyields
  obtain ⟨_, -, hnone⟩ := yields_bind.mp hyields
  exact nomatch hnone

/-- Calls that may be made in this state and leave it alone, whatever the replies are. -/
theorem Prog.ensures_of_yields {P : Call → Prop} (hp : p.Only P)
    (hspec : ∀ c Q, P c → (∀ reply, Q reply g) → spec c g Q)
    (hpost : ∀ value, p.Yields value → post value g) : p.Ensures spec post g := by
  induction p with
  | pure value => exact hpost value rfl
  | perform c next ih =>
      exact hspec c _ hp.1 fun reply =>
        ih reply (hp.2 reply) fun value hvalue => hpost value ⟨reply, hvalue⟩

theorem Prog.ensures_of_only {P : Call → Prop} (hp : p.Only P)
    (hspec : ∀ c Q, P c → (∀ reply, Q reply g) → spec c g Q) (hpost : ∀ value, post value g) :
    p.Ensures spec post g :=
  ensures_of_yields hp hspec fun value _ => hpost value

/-- Calls that may be made in this state, leave it alone and are answered as in an environment. -/
theorem Prog.ensures_of_returns {P : Call → Prop} (hp : p.Only P)
    (hspec : ∀ c past reply Q, P c → env past c = some reply → Q reply g → spec c g Q)
    (hreturns : Returns env past p events value) (hpost : post value g) :
    p.Ensures spec post g := by
  induction p generalizing past events with
  | pure value' =>
      cases hreturns
      exact hpost
  | perform c next ih =>
      obtain ⟨reply, rest, hreply, -, hnext⟩ := hreturns.of_perform
      exact hspec c past reply _ hp.1 hreply (ih reply (hp.2 reply) hnext)

end Specifications

end Program
