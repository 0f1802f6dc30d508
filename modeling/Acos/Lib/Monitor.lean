import Acos.Lib.Interleaving

/-!
# Sleeping and waking up under a lock

Threads share data under a lock and wait for each other on channels. A thread that goes to sleep
takes the lock of the table of threads, gives up the lock of the data and marks itself as sleeping,
in this order. To wake up the threads that sleep on a channel needs the lock of the table. The rule
for the code of such threads: if it owes a channel a wakeup whenever it has put an end to what the
sleepers of the channel wait for, then no sleeper is forgotten.
-/

namespace Monitor

open Transition

/-- What the code does at one of its locations. A computation needs the lock and can ask whether the
thread has been killed. -/
inductive Op (Loc Chan Data : Type) where
  | outside
  | acquire (next : Loc)
  | release (next : Loc)
  | compute (f : Bool → Data → Data × Loc)
  | wakeup (chan : Chan) (next : Loc)
  | sleep (chan : Chan) (next : Loc)

/-- Where a thread is: at a location, or in a call of `sleep` that goes on at `next`. -/
inductive At (Loc Chan : Type) where
  | loc (l : Loc)
  | releasing (chan : Chan) (next : Loc)
  | marking (chan : Chan) (next : Loc)
  | asleep (chan : Chan) (next : Loc)
  | runnable (chan : Chan) (next : Loc)
  | retaking (chan : Chan) (next : Loc)

structure State (Thread Loc Chan Data : Type) where
  data : Data
  lock : Option Thread
  table : Option Thread
  thread : Thread → At Loc Chan
  killed : Thread → Bool

inductive Label (Thread Loc : Type) where
  | run (t : Thread)
  | call (t : Thread) (l : Loc)
  | kill (t : Thread)

/-- The code, and who may call it where. -/
structure Program (Thread Loc Chan Data : Type) where
  code : Loc → Op Loc Chan Data
  start : Thread → Loc
  data : Data
  enter : State Thread Loc Chan Data → Thread → Loc → Bool
  killable : Bool

section Steps

variable {Thread Loc Chan Data : Type} [DecidableEq Thread] [DecidableEq Chan]

def State.move (s : State Thread Loc Chan Data) (t : Thread) (place : At Loc Chan) :
    State Thread Loc Chan Data :=
  { s with thread := Function.update s.thread t place }

def At.wake (chan : Chan) : At Loc Chan → At Loc Chan
  | .asleep c next => if c = chan then .runnable c next else .asleep c next
  | place => place

/-- A killed thread does not go on sleeping. -/
def At.rouse : At Loc Chan → At Loc Chan
  | .asleep c next => .runnable c next
  | place => place

def State.wake (s : State Thread Loc Chan Data) (chan : Chan) : State Thread Loc Chan Data :=
  { s with thread := fun t => (s.thread t).wake chan }

/-- The next step of a thread. -/
def run (code : Loc → Op Loc Chan Data) (t : Thread) (s : State Thread Loc Chan Data) :
    Option (State Thread Loc Chan Data) :=
  match s.thread t with
  | .loc l =>
      match code l with
      | .outside => none
      | .acquire next =>
          if s.lock = none then some { s.move t (.loc next) with lock := some t } else none
      | .release next => some { s.move t (.loc next) with lock := none }
      | .compute f => some { s.move t (.loc (f (s.killed t) s.data).2) with
          data := (f (s.killed t) s.data).1 }
      | .wakeup chan next =>
          if s.table = none then some ((s.wake chan).move t (.loc next)) else none
      | .sleep chan next =>
          if s.table = none then some { s.move t (.releasing chan next) with table := some t }
          else none
  | .releasing chan next => some { s.move t (.marking chan next) with lock := none }
  | .marking chan next => some { s.move t (.asleep chan next) with table := none }
  | .asleep _ _ => none
  | .runnable chan next => if s.table = none then some (s.move t (.retaking chan next)) else none
  | .retaking _ next =>
      if s.lock = none then some { s.move t (.loc next) with lock := some t } else none

def perform (prog : Program Thread Loc Chan Data) :
    Label Thread Loc → State Thread Loc Chan Data → Option (State Thread Loc Chan Data)
  | .run t, s => run prog.code t s
  | .call t l, s =>
      match s.thread t with
      | .loc l₀ =>
          match prog.code l₀ with
          | .outside => if prog.enter s t l = true then some (s.move t (.loc l)) else none
          | _ => none
      | _ => none
  | .kill t, s =>
      if prog.killable = true ∧ s.table = none then
        some { s.move t (s.thread t).rouse with killed := Function.update s.killed t true }
      else none

/-- The steps of the code, with what they need. -/
inductive Step (code : Loc → Op Loc Chan Data) (t : Thread) (s : State Thread Loc Chan Data) :
    State Thread Loc Chan Data → Prop where
  | acquire {l next : Loc} (ht : s.thread t = .loc l) (hop : code l = .acquire next)
      (hfree : s.lock = none) : Step code t s { s.move t (.loc next) with lock := some t }
  | release {l next : Loc} (ht : s.thread t = .loc l) (hop : code l = .release next) :
      Step code t s { s.move t (.loc next) with lock := none }
  | compute {l : Loc} {f : Bool → Data → Data × Loc} (ht : s.thread t = .loc l)
      (hop : code l = .compute f) :
      Step code t s { s.move t (.loc (f (s.killed t) s.data).2) with
        data := (f (s.killed t) s.data).1 }
  | wakeup {l next : Loc} {chan : Chan} (ht : s.thread t = .loc l) (hop : code l = .wakeup chan next)
      (hfree : s.table = none) : Step code t s ((s.wake chan).move t (.loc next))
  | sleep {l next : Loc} {chan : Chan} (ht : s.thread t = .loc l) (hop : code l = .sleep chan next)
      (hfree : s.table = none) :
      Step code t s { s.move t (.releasing chan next) with table := some t }
  | giveUp {chan : Chan} {next : Loc} (ht : s.thread t = .releasing chan next) :
      Step code t s { s.move t (.marking chan next) with lock := none }
  | mark {chan : Chan} {next : Loc} (ht : s.thread t = .marking chan next) :
      Step code t s { s.move t (.asleep chan next) with table := none }
  | resume {chan : Chan} {next : Loc} (ht : s.thread t = .runnable chan next)
      (hfree : s.table = none) : Step code t s (s.move t (.retaking chan next))
  | retake {chan : Chan} {next : Loc} (ht : s.thread t = .retaking chan next) (hfree : s.lock = none) :
      Step code t s { s.move t (.loc next) with lock := some t }

theorem run_eq_some_iff {code : Loc → Op Loc Chan Data} {t : Thread}
    {s s' : State Thread Loc Chan Data} : run code t s = some s' ↔ Step code t s s' := by
  constructor
  · intro hrun
    unfold run at hrun
    split at hrun
    case h_1 l ht =>
        split at hrun
        case h_1 => cases hrun
        case h_2 next hop =>
            obtain ⟨hfree, hsome⟩ := Option.ite_none_right_eq_some.mp hrun
            cases hsome
            exact .acquire ht hop hfree
        case h_3 next hop =>
            cases hrun
            exact .release ht hop
        case h_4 f hop =>
            cases hrun
            exact .compute ht hop
        case h_5 chan next hop =>
            obtain ⟨hfree, hsome⟩ := Option.ite_none_right_eq_some.mp hrun
            cases hsome
            exact .wakeup ht hop hfree
        case h_6 chan next hop =>
            obtain ⟨hfree, hsome⟩ := Option.ite_none_right_eq_some.mp hrun
            cases hsome
            exact .sleep ht hop hfree
    case h_2 chan next ht =>
        cases hrun
        exact .giveUp ht
    case h_3 chan next ht =>
        cases hrun
        exact .mark ht
    case h_4 => cases hrun
    case h_5 next ht =>
        obtain ⟨hfree, hsome⟩ := Option.ite_none_right_eq_some.mp hrun
        cases hsome
        exact .resume ht hfree
    case h_6 next ht =>
        obtain ⟨hfree, hsome⟩ := Option.ite_none_right_eq_some.mp hrun
        cases hsome
        exact .retake ht hfree
  · intro hstep
    cases hstep with
    | acquire ht hop hfree | wakeup ht hop hfree | sleep ht hop hfree =>
        simp only [run, ht, hop, hfree, if_true]
    | release ht hop | compute ht hop => simp only [run, ht, hop]
    | giveUp ht | mark ht => simp only [run, ht]
    | resume ht hfree | retake ht hfree => simp only [run, ht, hfree, if_true]

inductive Move (prog : Program Thread Loc Chan Data) (s : State Thread Loc Chan Data) :
    Label Thread Loc → State Thread Loc Chan Data → Prop where
  | run {t : Thread} {s' : State Thread Loc Chan Data} (hstep : Step prog.code t s s') :
      Move prog s (.run t) s'
  | call {t : Thread} {l₀ l : Loc} (ht : s.thread t = .loc l₀) (hop : prog.code l₀ = .outside)
      (henter : prog.enter s t l = true) : Move prog s (.call t l) (s.move t (.loc l))
  | kill {t : Thread} (hkill : prog.killable = true) (hfree : s.table = none) :
      Move prog s (.kill t)
        { s.move t (s.thread t).rouse with killed := Function.update s.killed t true }

theorem perform_move {prog : Program Thread Loc Chan Data} {label : Label Thread Loc}
    {s s' : State Thread Loc Chan Data} (hperform : perform prog label s = some s') :
    Move prog s label s' := by
  cases label with
  | run t => exact .run (run_eq_some_iff.mp hperform)
  | call t l =>
      simp only [perform] at hperform
      split at hperform
      · rename_i l₀ ht
        split at hperform
        · rename_i hop
          obtain ⟨henter, hsome⟩ := Option.ite_none_right_eq_some.mp hperform
          cases hsome
          exact .call ht hop henter
        · cases hperform
      · cases hperform
  | kill t =>
      obtain ⟨⟨hkill, hfree⟩, hsome⟩ := Option.ite_none_right_eq_some.mp hperform
      cases hsome
      exact .kill hkill hfree

theorem Move.perform {prog : Program Thread Loc Chan Data} {label : Label Thread Loc}
    {s s' : State Thread Loc Chan Data} (hmove : Move prog s label s') :
    perform prog label s = some s' := by
  cases hmove with
  | run hstep => exact run_eq_some_iff.mpr hstep
  | call ht hop henter => simp only [Monitor.perform, ht, hop, henter, if_true]
  | kill hkill hfree => exact if_pos ⟨hkill, hfree⟩

def Program.init (prog : Program Thread Loc Chan Data) : State Thread Loc Chan Data where
  data := prog.data
  lock := none
  table := none
  thread t := .loc (prog.start t)
  killed _ := false

def Program.system (prog : Program Thread Loc Chan Data) :
    System (State Thread Loc Chan Data) (Label Thread Loc) :=
  .ofFunction (· = prog.init) (perform prog)

theorem Move.reachable {prog : Program Thread Loc Chan Data} {label : Label Thread Loc}
    {s s' : State Thread Loc Chan Data} (hmove : Move prog s label s')
    (hreach : Reachable prog.system s) : Reachable prog.system s' :=
  .step label hreach hmove.perform

/-- A call of `sleep` that nobody disturbs. -/
theorem reachable_asleep {prog : Program Thread Loc Chan Data} {t : Thread} {l next : Loc}
    {chan : Chan} {s : State Thread Loc Chan Data} (hreach : Reachable prog.system s)
    (ht : s.thread t = .loc l) (hop : prog.code l = .sleep chan next) (hfree : s.table = none) :
    Reachable prog.system { s.move t (.asleep chan next) with lock := none, table := none } := by
  have hsleep := (Move.run (.sleep ht hop hfree)).reachable hreach
  have hgiveUp := (Move.run (.giveUp (Function.update_self ..))).reachable hsleep
  have hmark := (Move.run (.mark (Function.update_self ..))).reachable hgiveUp
  simp only [State.move, Function.update_idem] at hmark ⊢
  exact hmark

end Steps

/-! ### Where the threads go -/

section Targets

variable {Thread Loc Chan Data : Type}

/-- The location of a thread, or the one at which its call of `sleep` goes on. -/
def At.target : At Loc Chan → Loc
  | .loc l => l
  | .releasing _ next | .marking _ next | .asleep _ next | .runnable _ next | .retaking _ next => next

/-- The locations and the data that can follow. -/
inductive Op.Leads (killed : Bool) (d : Data) : Op Loc Chan Data → Data → Loc → Prop where
  | acquire (next : Loc) : Leads killed d (.acquire next) d next
  | release (next : Loc) : Leads killed d (.release next) d next
  | compute (f : Bool → Data → Data × Loc) :
      Leads killed d (.compute f) (f killed d).1 (f killed d).2
  | wakeup (chan : Chan) (next : Loc) : Leads killed d (.wakeup chan next) d next
  | sleep (chan : Chan) (next : Loc) : Leads killed d (.sleep chan next) d next

variable [DecidableEq Thread] {code : Loc → Op Loc Chan Data} {t : Thread}
  {s s' : State Thread Loc Chan Data}

theorem State.target_move (s : State Thread Loc Chan Data) (t u : Thread) (place : At Loc Chan) :
    ((s.move t place).thread u).target = if u = t then place.target else (s.thread u).target := by
  unfold State.move
  by_cases hu : u = t
  · subst hu
    simp
  · simp [hu]

theorem At.target_rouse (place : At Loc Chan) : place.rouse.target = place.target := by
  cases place <;> rfl

theorem State.target_rouse (s : State Thread Loc Chan Data) (t u : Thread) :
    ((s.move t (s.thread t).rouse).thread u).target = (s.thread u).target := by
  rw [State.target_move]
  split_ifs with hu
  · rw [At.target_rouse, hu]
  · rfl

variable [DecidableEq Chan]

theorem At.target_wake (place : At Loc Chan) (chan : Chan) :
    (place.wake chan).target = place.target := by
  cases place with
  | asleep c next =>
      by_cases hc : c = chan
      · rw [At.wake, if_pos hc]
        rfl
      · rw [At.wake, if_neg hc]
  | loc | releasing | marking | runnable | retaking => rfl

/-- A step is one of a call of `sleep`, or it goes on from a location. -/
theorem Step.leads (hstep : Step code t s s') :
    (s'.data = s.data ∧ (∀ l, s.thread t ≠ .loc l) ∧
      ∀ u, (s'.thread u).target = (s.thread u).target) ∨
    ∃ l, s.thread t = .loc l ∧ (code l).Leads (s.killed t) s.data s'.data (s'.thread t).target ∧
      ∀ u, u ≠ t → (s'.thread u).target = (s.thread u).target := by
  have hothers : ∀ place u, u ≠ t → ((s.move t place).thread u).target = (s.thread u).target :=
    fun place u hu => by rw [State.target_move, if_neg hu]
  have hself : ∀ place, ((s.move t place).thread t).target = place.target :=
    fun place => by rw [State.target_move, if_pos rfl]
  have hsame : ∀ {place : At Loc Chan}, place.target = (s.thread t).target →
      ∀ u, ((s.move t place).thread u).target = (s.thread u).target := by
    intro place hplace u
    rw [State.target_move]
    split_ifs with hu
    · rw [hu, hplace]
    · rfl
  cases hstep with
  | @acquire l next ht hop =>
      refine .inr ⟨l, ht, ?_, hothers _⟩
      rw [hop]
      exact hself (.loc next) ▸ .acquire next
  | @release l next ht hop =>
      refine .inr ⟨l, ht, ?_, hothers _⟩
      rw [hop]
      exact hself (.loc next) ▸ .release next
  | @compute l f ht hop =>
      refine .inr ⟨l, ht, ?_, hothers _⟩
      rw [hop]
      exact hself (.loc (f (s.killed t) s.data).2) ▸ .compute f
  | @wakeup l next chan ht hop =>
      refine .inr ⟨l, ht, ?_, fun u hu => ?_⟩
      · rw [hop, State.target_move, if_pos rfl]
        exact .wakeup chan next
      · rw [State.target_move, if_neg hu]
        exact At.target_wake _ chan
  | @sleep l next chan ht hop =>
      refine .inr ⟨l, ht, ?_, hothers _⟩
      rw [hop]
      exact hself (.releasing chan next) ▸ .sleep chan next
  | giveUp ht | mark ht | resume ht | retake ht =>
      exact .inl ⟨rfl, fun l => by rw [ht]; exact nofun, hsame (by rw [ht]; rfl)⟩

end Targets

/-! ### The locks -/

section Locks

variable {Thread Loc Chan Data : Type}

/-- The locations at which the lock is held are told from the code. -/
structure Locking (prog : Program Thread Loc Chan Data) (holds : Loc → Bool) : Prop where
  start (t : Thread) : prog.code (prog.start t) = .outside
  enter {s : State Thread Loc Chan Data} {t : Thread} {l : Loc} (henter : prog.enter s t l = true) :
    holds l = false
  outside {l : Loc} (hop : prog.code l = .outside) : holds l = false
  acquire {l next : Loc} (hop : prog.code l = .acquire next) : holds l = false ∧ holds next = true
  release {l next : Loc} (hop : prog.code l = .release next) : holds l = true ∧ holds next = false
  compute {l : Loc} {f : Bool → Data → Data × Loc} (hop : prog.code l = .compute f) :
    holds l = true ∧ ∀ k d, holds (f k d).2 = true
  wakeup {l next : Loc} {chan : Chan} (hop : prog.code l = .wakeup chan next) :
    holds l = true ∧ holds next = true
  sleep {l next : Loc} {chan : Chan} (hop : prog.code l = .sleep chan next) :
    holds l = true ∧ holds next = true

def At.holds (holds : Loc → Bool) : At Loc Chan → Bool
  | .loc l => holds l
  | .releasing _ _ => true
  | _ => false

/-- The thread has the lock of the table. -/
def At.inTable : At Loc Chan → Bool
  | .releasing _ _ | .marking _ _ => true
  | _ => false

/-- The thread is in a call of `sleep`, and waits on the channel or is about to do so. -/
def At.Waits (chan : Chan) (next : Loc) (place : At Loc Chan) : Prop :=
  place = .releasing chan next ∨ place = .marking chan next ∨ place = .asleep chan next

/-- The call of `sleep` that the thread is in. -/
def At.sleeping : At Loc Chan → Option (Chan × Loc)
  | .loc _ => none
  | .releasing chan next | .marking chan next | .asleep chan next | .runnable chan next
  | .retaking chan next => some (chan, next)

structure Locked (prog : Program Thread Loc Chan Data) (holds : Loc → Bool)
    (s : State Thread Loc Chan Data) : Prop where
  lock : ∀ t, s.lock = some t ↔ (s.thread t).holds holds = true
  table : ∀ t, s.table = some t ↔ (s.thread t).inTable = true
  sleeping : ∀ t c next, (s.thread t).sleeping = some (c, next) → ∃ l, prog.code l = .sleep c next

variable {prog : Program Thread Loc Chan Data} {holds : Loc → Bool}
  {s s' : State Thread Loc Chan Data} {t u : Thread}

theorem Locked.eq_of_holds (h : Locked prog holds s) (ht : (s.thread t).holds holds = true)
    (hu : (s.thread u).holds holds = true) : t = u :=
  Option.some.inj (((h.lock t).mpr ht).symm.trans ((h.lock u).mpr hu))

variable [DecidableEq Thread]

@[simp]
theorem State.move_self (s : State Thread Loc Chan Data) (t : Thread) (place : At Loc Chan) :
    (s.move t place).thread t = place := Function.update_self ..

theorem State.move_of_ne (s : State Thread Loc Chan Data) (hu : u ≠ t) (place : At Loc Chan) :
    (s.move t place).thread u = s.thread u := Function.update_of_ne hu ..

/-- A lock stays where it is if the thread that moves keeps it or goes on without it. -/
theorem owner_move_same {owns : At Loc Chan → Bool} {owner : Option Thread}
    (h : ∀ u, owner = some u ↔ owns (s.thread u) = true) {place : At Loc Chan}
    (hsame : owns place = owns (s.thread t)) (u : Thread) :
    owner = some u ↔ owns ((s.move t place).thread u) = true := by
  by_cases hu : u = t
  · subst hu
    rw [State.move_self, hsame]
    exact h u
  · rw [State.move_of_ne s hu]
    exact h u

theorem owner_move_take {owns : At Loc Chan → Bool} {owner : Option Thread}
    (h : ∀ u, owner = some u ↔ owns (s.thread u) = true) (hfree : owner = none)
    {place : At Loc Chan} (htakes : owns place = true) (u : Thread) :
    some t = some u ↔ owns ((s.move t place).thread u) = true := by
  by_cases hu : u = t
  · subst hu
    simp [htakes]
  · rw [State.move_of_ne s hu, ← h u, hfree]
    simp [Ne.symm hu]

theorem owner_move_drop {owns : At Loc Chan → Bool} {owner : Option Thread}
    (h : ∀ u, owner = some u ↔ owns (s.thread u) = true) (hhas : owns (s.thread t) = true)
    {place : At Loc Chan} (hdrops : owns place = false) (u : Thread) :
    none = some u ↔ owns ((s.move t place).thread u) = true := by
  by_cases hu : u = t
  · subst hu
    simp [hdrops]
  · rw [State.move_of_ne s hu, ← h u, (h t).mpr hhas]
    simp [Ne.symm hu]

theorem sleeping_move {code : Loc → Op Loc Chan Data}
    (h : ∀ u c next, (s.thread u).sleeping = some (c, next) → ∃ l, code l = .sleep c next)
    {place : At Loc Chan}
    (hplace : ∀ c next, place.sleeping = some (c, next) → ∃ l, code l = .sleep c next)
    (u : Thread) (c : Chan) (next : Loc)
    (hu : ((s.move t place).thread u).sleeping = some (c, next)) : ∃ l, code l = .sleep c next := by
  by_cases hut : u = t
  · subst hut
    rw [State.move_self] at hu
    exact hplace c next hu
  · rw [State.move_of_ne s hut] at hu
    exact h u c next hu

theorem At.rouse_holds (place : At Loc Chan) : place.rouse.holds holds = place.holds holds := by
  cases place <;> rfl

theorem At.rouse_inTable (place : At Loc Chan) : place.rouse.inTable = place.inTable := by
  cases place <;> rfl

theorem At.rouse_sleeping (place : At Loc Chan) : place.rouse.sleeping = place.sleeping := by
  cases place <;> rfl

/-- A thread moves and keeps the locks that it has. -/
theorem Locked.move (h : Locked prog holds s) {place : At Loc Chan}
    (hlock : place.holds holds = (s.thread t).holds holds)
    (htable : place.inTable = (s.thread t).inTable)
    (hsleeping : ∀ c next, place.sleeping = some (c, next) → ∃ l, prog.code l = .sleep c next) :
    Locked prog holds (s.move t place) :=
  ⟨owner_move_same h.lock hlock, owner_move_same h.table htable, sleeping_move h.sleeping hsleeping⟩

variable [DecidableEq Chan]

theorem At.wake_eq (chan : Chan) (place : At Loc Chan) :
    place.wake chan = place ∨ place.wake chan = place.rouse := by
  cases place with
  | asleep c next =>
      by_cases hc : c = chan
      · exact .inr (if_pos hc)
      · exact .inl (if_neg hc)
  | loc | releasing | marking | runnable | retaking => exact .inl rfl

omit [DecidableEq Thread] in
theorem Locked.wake (h : Locked prog holds s) (chan : Chan) : Locked prog holds (s.wake chan) := by
  have hholds : ∀ place : At Loc Chan, (place.wake chan).holds holds = place.holds holds := by
    intro place
    rcases place.wake_eq chan with heq | heq <;> rw [heq]
    exact place.rouse_holds
  have hinTable : ∀ place : At Loc Chan, (place.wake chan).inTable = place.inTable := by
    intro place
    rcases place.wake_eq chan with heq | heq <;> rw [heq]
    exact place.rouse_inTable
  have hsleeping : ∀ place : At Loc Chan, (place.wake chan).sleeping = place.sleeping := by
    intro place
    rcases place.wake_eq chan with heq | heq <;> rw [heq]
    exact place.rouse_sleeping
  refine ⟨fun t => ?_, fun t => ?_, fun t c next => ?_⟩
  · change _ ↔ ((s.thread t).wake chan).holds holds = true
    rw [hholds]
    exact h.lock t
  · change _ ↔ ((s.thread t).wake chan).inTable = true
    rw [hinTable]
    exact h.table t
  · change ((s.thread t).wake chan).sleeping = some (c, next) → _
    rw [hsleeping]
    exact h.sleeping t c next

theorem Locked.step (hlocking : Locking prog holds) (h : Locked prog holds s)
    (hstep : Step prog.code t s s') : Locked prog holds s' := by
  -- a call of `sleep` stays the same while it lasts
  have hsame : ∀ {place : At Loc Chan}, place.sleeping = (s.thread t).sleeping →
      ∀ c n, place.sleeping = some (c, n) → ∃ l, prog.code l = .sleep c n :=
    fun heq c n hplace => h.sleeping t c n (heq ▸ hplace)
  cases hstep with
  | acquire ht hop hfree =>
      obtain ⟨hno, hyes⟩ := hlocking.acquire hop
      exact ⟨owner_move_take h.lock hfree hyes, owner_move_same h.table (by rw [ht]; rfl),
        sleeping_move h.sleeping nofun⟩
  | release ht hop =>
      obtain ⟨hyes, hno⟩ := hlocking.release hop
      exact ⟨owner_move_drop h.lock (by rw [ht]; exact hyes) hno,
        owner_move_same h.table (by rw [ht]; rfl), sleeping_move h.sleeping nofun⟩
  | compute ht hop =>
      obtain ⟨hyes, hnext⟩ := hlocking.compute hop
      exact ⟨owner_move_same h.lock (by rw [ht]; exact (hnext _ _).trans hyes.symm),
        owner_move_same h.table (by rw [ht]; rfl), sleeping_move h.sleeping nofun⟩
  | @wakeup l next chan ht hop hfree =>
      obtain ⟨hyes, hnext⟩ := hlocking.wakeup hop
      have hwoken : (s.wake chan).thread t = .loc l := by
        change (s.thread t).wake chan = _
        rw [ht]
        rfl
      exact (h.wake chan).move (by rw [hwoken]; exact hnext.trans hyes.symm) (by rw [hwoken]; rfl)
        nofun
  | sleep ht hop hfree =>
      obtain ⟨hyes, -⟩ := hlocking.sleep hop
      refine ⟨owner_move_same h.lock (by rw [ht]; exact hyes.symm),
        owner_move_take h.table hfree rfl, sleeping_move h.sleeping ?_⟩
      intro c n hn
      cases hn
      exact ⟨_, hop⟩
  | giveUp ht =>
      exact ⟨owner_move_drop h.lock (by rw [ht]; rfl) rfl, owner_move_same h.table (by rw [ht]; rfl),
        sleeping_move h.sleeping (hsame (by rw [ht]; rfl))⟩
  | mark ht =>
      exact ⟨owner_move_same h.lock (by rw [ht]; rfl), owner_move_drop h.table (by rw [ht]; rfl) rfl,
        sleeping_move h.sleeping (hsame (by rw [ht]; rfl))⟩
  | resume ht hfree =>
      exact h.move (by rw [ht]; rfl) (by rw [ht]; rfl) (hsame (by rw [ht]; rfl))
  | retake ht hfree =>
      obtain ⟨l, hop⟩ := h.sleeping t _ _ (by rw [ht]; rfl)
      exact ⟨owner_move_take h.lock hfree (hlocking.sleep hop).2,
        owner_move_same h.table (by rw [ht]; rfl), sleeping_move h.sleeping nofun⟩

theorem Locked.perform (hlocking : Locking prog holds) (h : Locked prog holds s)
    {label : Label Thread Loc} (hmove : Move prog s label s') : Locked prog holds s' := by
  cases hmove with
  | run hstep => exact h.step hlocking hstep
  | call ht hop henter =>
      exact h.move (by rw [ht]; exact (hlocking.enter henter).trans (hlocking.outside hop).symm)
        (by rw [ht]; rfl) nofun
  | @kill t hkill hfree =>
      have hmoved : Locked prog holds (s.move t (s.thread t).rouse) :=
        h.move (At.rouse_holds _) (At.rouse_inTable _) fun c next hnext => by
          rw [At.rouse_sleeping] at hnext
          exact h.sleeping t c next hnext
      exact ⟨hmoved.lock, hmoved.table, hmoved.sleeping⟩

omit [DecidableEq Thread] [DecidableEq Chan] in
theorem Locked.init (hlocking : Locking prog holds) : Locked prog holds prog.init where
  lock t := by
    change none = some t ↔ holds (prog.start t) = true
    rw [hlocking.outside (hlocking.start t)]
    exact ⟨nofun, nofun⟩
  table t := ⟨nofun, nofun⟩
  sleeping t c next := nofun

theorem Locked.reachable (hlocking : Locking prog holds) (hreach : Reachable prog.system s) :
    Locked prog holds s := by
  induction hreach with
  | init hinit =>
      cases hinit
      exact Locked.init hlocking
  | step label _ hstep ih => exact ih.perform hlocking (perform_move hstep)

/-- Whoever is in the code and does not sleep is kept waiting by nobody but threads that can go on. -/
theorem Locked.exists_step (hlocking : Locking prog holds) (h : Locked prog holds s)
    (hsleep : ∀ chan next, s.thread t ≠ .asleep chan next)
    (hinside : ∀ l, s.thread t = .loc l → prog.code l ≠ .outside) :
    ∃ u s', run prog.code u s = some s' := by
  suffices ∃ u s', Step prog.code u s s' by
    obtain ⟨u, s', hstep⟩ := this
    exact ⟨u, s', run_eq_some_iff.mpr hstep⟩
  cases htable : s.table with
  | some u =>
      have hu := (h.table u).mp htable
      cases hplace : s.thread u with
      | releasing => exact ⟨u, _, .giveUp hplace⟩
      | marking => exact ⟨u, _, .mark hplace⟩
      | loc | asleep | runnable | retaking =>
          rw [hplace] at hu
          cases hu
  | none =>
      cases hlock : s.lock with
      | some u =>
          have hu := (h.lock u).mp hlock
          cases hplace : s.thread u with
          | releasing => exact ⟨u, _, .giveUp hplace⟩
          | loc l =>
              rw [hplace] at hu
              cases hop : prog.code l with
              | outside => exact absurd ((hlocking.outside hop).symm.trans hu) Bool.false_ne_true
              | acquire =>
                  exact absurd ((hlocking.acquire hop).1.symm.trans hu) Bool.false_ne_true
              | release => exact ⟨u, _, .release hplace hop⟩
              | compute => exact ⟨u, _, .compute hplace hop⟩
              | wakeup => exact ⟨u, _, .wakeup hplace hop htable⟩
              | sleep => exact ⟨u, _, .sleep hplace hop htable⟩
          | marking | asleep | runnable | retaking =>
              rw [hplace] at hu
              cases hu
      | none =>
          cases hplace : s.thread t with
          | releasing => exact ⟨t, _, .giveUp hplace⟩
          | marking => exact ⟨t, _, .mark hplace⟩
          | asleep => exact absurd hplace (hsleep _ _)
          | runnable => exact ⟨t, _, .resume hplace htable⟩
          | retaking => exact ⟨t, _, .retake hplace hlock⟩
          | loc l =>
              cases hop : prog.code l with
              | outside => exact absurd hop (hinside l hplace)
              | acquire => exact ⟨t, _, .acquire hplace hop hlock⟩
              | release => exact ⟨t, _, .release hplace hop⟩
              | compute => exact ⟨t, _, .compute hplace hop⟩
              | wakeup => exact ⟨t, _, .wakeup hplace hop htable⟩
              | sleep => exact ⟨t, _, .sleep hplace hop htable⟩

end Locks

/-! ### No wakeup is lost -/

section Signals

variable {Thread Loc Chan Data : Type}

/-- The rule for the code. `Wait` is what the sleepers of a channel wait for the end of, `Owes` says
at which locations the code is going to wake them up, and `Assert` what it knows there while it has
the lock. -/
structure Signals (prog : Program Thread Loc Chan Data) (holds : Loc → Bool)
    (Wait : Chan → Data → Prop) (Owes : Chan → Loc → Prop) (Assert : Loc → Data → Prop) :
    Prop where
  owes {c : Chan} {l : Loc} (howes : Owes c l) : holds l = true
  acquire {l next : Loc} (hop : prog.code l = .acquire next) (d : Data) : Assert next d
  release {l next : Loc} (hop : prog.code l = .release next) (c : Chan) : ¬Owes c l
  compute {l : Loc} {f : Bool → Data → Data × Loc} (hop : prog.code l = .compute f) {k : Bool}
    {d : Data} (hkill : k = true → prog.killable = true) (hassert : Assert l d) :
    Assert (f k d).2 (f k d).1 ∧
      ∀ c, Wait c d ∨ Owes c l → Wait c (f k d).1 ∨ Owes c (f k d).2
  wakeup {l next : Loc} {chan : Chan} (hop : prog.code l = .wakeup chan next) {d : Data}
    (hassert : Assert l d) : Assert next d ∧ ∀ c, Owes c l → c = chan ∨ Owes c next
  sleep {l next : Loc} {chan : Chan} (hop : prog.code l = .sleep chan next) :
    (∀ d, Assert l d → Wait chan d) ∧ (∀ c, ¬Owes c l) ∧ ∀ d, Assert next d

/-- Somebody is going to wake the sleepers of the channel up. -/
def State.Owing (Owes : Chan → Loc → Prop) (s : State Thread Loc Chan Data) (c : Chan) : Prop :=
  ∃ u l, s.thread u = .loc l ∧ Owes c l

structure Signalled (prog : Program Thread Loc Chan Data) (holds : Loc → Bool)
    (Wait : Chan → Data → Prop) (Owes : Chan → Loc → Prop) (Assert : Loc → Data → Prop)
    (s : State Thread Loc Chan Data) : Prop where
  killed : ∀ t, s.killed t = true → prog.killable = true
  assert : ∀ t l, s.thread t = .loc l → holds l = true → Assert l s.data
  waits : ∀ t c next, (s.thread t).Waits c next → Wait c s.data ∨ s.Owing Owes c

variable {prog : Program Thread Loc Chan Data} {holds : Loc → Bool} {Wait : Chan → Data → Prop}
  {Owes : Chan → Loc → Prop} {Assert : Loc → Data → Prop} {s s' : State Thread Loc Chan Data}
  {t : Thread} [DecidableEq Thread]

/-- A thread moves that owes nothing. -/
theorem State.Owing.move {c : Chan} (h : s.Owing Owes c)
    (hnot : ∀ l, s.thread t = .loc l → ¬Owes c l) (place : At Loc Chan) :
    (s.move t place).Owing Owes c := by
  obtain ⟨u, l, hu, howes⟩ := h
  have hne : u ≠ t := by
    rintro rfl
    exact hnot l hu howes
  exact ⟨u, l, (s.move_of_ne hne place).trans hu, howes⟩

/-- A thread moves, the data stay as they are, and it has owed nothing. -/
theorem Signalled.move (h : Signalled prog holds Wait Owes Assert s) (place : At Loc Chan)
    (hnot : ∀ l c, s.thread t = .loc l → ¬Owes c l)
    (hassert : ∀ l, place = .loc l → holds l = true → Assert l s.data)
    (hwaits : ∀ c next, place.Waits c next → Wait c s.data ∨ (s.thread t).Waits c next) :
    Signalled prog holds Wait Owes Assert (s.move t place) := by
  have hkeep : ∀ c, Wait c s.data ∨ s.Owing Owes c → Wait c s.data ∨ (s.move t place).Owing Owes c :=
    fun c hc => hc.imp_right fun howing => howing.move (fun l hl => hnot l c hl) place
  refine ⟨h.killed, fun u l hu hl => ?_, fun u c next hu => ?_⟩
  · by_cases hut : u = t
    · subst hut
      exact hassert l ((s.move_self u place).symm.trans hu) hl
    · exact h.assert u l ((s.move_of_ne hut place).symm.trans hu) hl
  · by_cases hut : u = t
    · subst hut
      rw [State.move_self] at hu
      exact (hwaits c next hu).elim .inl fun hold => hkeep c (h.waits u c next hold)
    · rw [State.move_of_ne s hut] at hu
      exact hkeep c (h.waits u c next hu)

theorem Signalled.compute (hlocking : Locking prog holds)
    (hsignals : Signals prog holds Wait Owes Assert) (hlocked : Locked prog holds s)
    (h : Signalled prog holds Wait Owes Assert s) {l : Loc} {f : Bool → Data → Data × Loc}
    (ht : s.thread t = .loc l) (hop : prog.code l = .compute f) :
    Signalled prog holds Wait Owes Assert
      { s.move t (.loc (f (s.killed t) s.data).2) with data := (f (s.killed t) s.data).1 } := by
  have hl := (hlocking.compute hop).1
  obtain ⟨hassert, hwaits⟩ := hsignals.compute hop (h.killed t) (h.assert t l ht hl)
  -- nobody else has the lock
  have honly : ∀ u l', s.thread u = .loc l' → holds l' = true → u = t := fun u l' hu hl' =>
    hlocked.eq_of_holds (by rw [hu]; exact hl') (by rw [ht]; exact hl)
  have hself := s.move_self t (.loc (f (s.killed t) s.data).2)
  refine ⟨h.killed, fun u l' hu hl' => ?_, fun u c next hu => ?_⟩
  · by_cases hut : u = t
    · subst hut
      cases hself.symm.trans hu
      exact hassert
    · exact absurd (honly u l' ((s.move_of_ne hut _).symm.trans hu) hl') hut
  · have hne : u ≠ t := by
      rintro rfl
      change ((s.move u _).thread u).Waits c next at hu
      rw [hself] at hu
      rcases hu with hu | hu | hu <;> cases hu
    change ((s.move t _).thread u).Waits c next at hu
    rw [s.move_of_ne hne] at hu
    have hbefore : Wait c s.data ∨ Owes c l := (h.waits u c next hu).imp_right fun howing => by
      obtain ⟨v, l', hv, howes⟩ := howing
      cases honly v l' hv (hsignals.owes howes)
      cases ht.symm.trans hv
      exact howes
    exact (hwaits c hbefore).imp_right fun howes => ⟨t, _, hself, howes⟩

variable [DecidableEq Chan]

theorem Signalled.wakeup (hlocking : Locking prog holds)
    (hsignals : Signals prog holds Wait Owes Assert) (hlocked : Locked prog holds s)
    (h : Signalled prog holds Wait Owes Assert s) {l next : Loc} {chan : Chan}
    (ht : s.thread t = .loc l) (hop : prog.code l = .wakeup chan next) (hfree : s.table = none) :
    Signalled prog holds Wait Owes Assert ((s.wake chan).move t (.loc next)) := by
  have hl := (hlocking.wakeup hop).1
  obtain ⟨hassert, howes⟩ := hsignals.wakeup hop (h.assert t l ht hl)
  have hself := (s.wake chan).move_self t (.loc next)
  have hloc : ∀ u l', (s.thread u).wake chan = .loc l' → s.thread u = .loc l' := by
    intro u l' hu
    rcases (s.thread u).wake_eq chan with heq | heq
    · exact heq.symm.trans hu
    · rw [heq] at hu
      cases hplace : s.thread u <;> rw [hplace] at hu <;> cases hu
      rfl
  refine ⟨h.killed, fun u l' hu hl' => ?_, fun u c n hu => ?_⟩
  · by_cases hut : u = t
    · subst hut
      cases hself.symm.trans hu
      exact hassert
    · exact h.assert u l' (hloc u l' (((s.wake chan).move_of_ne hut _).symm.trans hu)) hl'
  · have hne : u ≠ t := by
      rintro rfl
      rw [hself] at hu
      rcases hu with hu | hu | hu <;> cases hu
    rw [State.move_of_ne _ hne] at hu
    -- whoever still waits sleeps on another channel
    have hasleep : s.thread u = .asleep c n ∧ c ≠ chan := by
      have hnot : (s.thread u).inTable = false := by
        rw [Bool.eq_false_iff, Ne, ← hlocked.table u, hfree]
        exact nofun
      change ((s.thread u).wake chan).Waits c n at hu
      cases hplace : s.thread u with
      | asleep c' n' =>
          rw [hplace] at hu
          by_cases hc : c' = chan
          · rw [At.wake, if_pos hc] at hu
            rcases hu with hu | hu | hu <;> cases hu
          · rw [At.wake, if_neg hc] at hu
            rcases hu with hu | hu | hu <;> cases hu
            exact ⟨rfl, hc⟩
      | releasing | marking =>
          rw [hplace] at hnot
          cases hnot
      | loc | runnable | retaking =>
          rw [hplace] at hu
          rcases hu with hu | hu | hu <;> cases hu
    refine (h.waits u c n (.inr (.inr hasleep.1))).imp_right ?_
    rintro ⟨v, l', hv, howes'⟩
    by_cases hvt : v = t
    · subst hvt
      cases ht.symm.trans hv
      exact ⟨v, next, hself, (howes c howes').resolve_left hasleep.2⟩
    · refine ⟨v, l', ((s.wake chan).move_of_ne hvt _).trans ?_, howes'⟩
      change (s.thread v).wake chan = _
      rw [hv]
      rfl

theorem Signalled.step (hlocking : Locking prog holds)
    (hsignals : Signals prog holds Wait Owes Assert) (hlocked : Locked prog holds s)
    (h : Signalled prog holds Wait Owes Assert s) (hstep : Step prog.code t s s') :
    Signalled prog holds Wait Owes Assert s' := by
  have hnot : ∀ {l : Loc}, s.thread t = .loc l → (∀ c, ¬Owes c l) →
      ∀ l' c, s.thread t = .loc l' → ¬Owes c l' := by
    intro l ht hl l' c hl'
    cases ht.symm.trans hl'
    exact hl c
  have hnowhere : ∀ {place : At Loc Chan}, s.thread t = place → (∀ l, place ≠ .loc l) →
      ∀ l' c, s.thread t = .loc l' → ¬Owes c l' :=
    fun ht hplace l' c hl' => absurd (ht.symm.trans hl') (hplace l')
  cases hstep with
  | @acquire l next ht hop hfree =>
      have hmoved := h.move (.loc next)
        (hnot ht fun c howes => by
          exact absurd ((hlocking.acquire hop).1.symm.trans (hsignals.owes howes)) Bool.false_ne_true)
        (fun l' hl' _ => by cases hl'; exact hsignals.acquire hop _)
        (fun c n hw => by rcases hw with hw | hw | hw <;> cases hw)
      exact ⟨hmoved.killed, hmoved.assert, hmoved.waits⟩
  | @release l next ht hop =>
      have hmoved := h.move (.loc next) (hnot ht (hsignals.release hop))
        (fun l' hl' hholds => by
          cases hl'
          exact absurd ((hlocking.release hop).2.symm.trans hholds) Bool.false_ne_true)
        (fun c n hw => by rcases hw with hw | hw | hw <;> cases hw)
      exact ⟨hmoved.killed, hmoved.assert, hmoved.waits⟩
  | compute ht hop => exact h.compute hlocking hsignals hlocked ht hop
  | wakeup ht hop hfree => exact h.wakeup hlocking hsignals hlocked ht hop hfree
  | @sleep l next chan ht hop hfree =>
      obtain ⟨hwait, hno, -⟩ := hsignals.sleep hop
      have hmoved := h.move (.releasing chan next) (hnot ht hno)
        nofun
        (fun c n hw => by
          rcases hw with hw | hw | hw <;> cases hw
          exact .inl (hwait _ (h.assert t l ht (hlocking.sleep hop).1)))
      exact ⟨hmoved.killed, hmoved.assert, hmoved.waits⟩
  | @giveUp chan next ht =>
      have hmoved := h.move (.marking chan next) (hnowhere ht nofun) nofun
        (fun c n hw => by
          rcases hw with hw | hw | hw <;> cases hw
          exact .inr (.inl ht))
      exact ⟨hmoved.killed, hmoved.assert, hmoved.waits⟩
  | @mark chan next ht =>
      have hmoved := h.move (.asleep chan next) (hnowhere ht nofun) nofun
        (fun c n hw => by
          rcases hw with hw | hw | hw <;> cases hw
          exact .inr (.inr (.inl ht)))
      exact ⟨hmoved.killed, hmoved.assert, hmoved.waits⟩
  | @resume chan next ht hfree =>
      exact h.move (.retaking chan next) (hnowhere ht nofun) nofun
        (fun c n hw => by rcases hw with hw | hw | hw <;> cases hw)
  | @retake chan next ht hfree =>
      obtain ⟨l, hop⟩ := hlocked.sleeping t chan next (by rw [ht]; rfl)
      have hmoved := h.move (.loc next) (hnowhere ht nofun)
        (fun l' hl' _ => by cases hl'; exact (hsignals.sleep hop).2.2 _)
        (fun c n hw => by rcases hw with hw | hw | hw <;> cases hw)
      exact ⟨hmoved.killed, hmoved.assert, hmoved.waits⟩

theorem Signalled.perform (hlocking : Locking prog holds)
    (hsignals : Signals prog holds Wait Owes Assert) (hlocked : Locked prog holds s)
    (h : Signalled prog holds Wait Owes Assert s) {label : Label Thread Loc}
    (hmove : Move prog s label s') : Signalled prog holds Wait Owes Assert s' := by
  cases hmove with
  | run hstep => exact h.step hlocking hsignals hlocked hstep
  | @call t l₀ l ht hop henter =>
      refine h.move (.loc l) (fun l' c hl' howes => ?_) (fun l' hl' hholds => ?_) fun c n hw => ?_
      · cases ht.symm.trans hl'
        exact absurd ((hlocking.outside hop).symm.trans (hsignals.owes howes)) Bool.false_ne_true
      · cases hl'
        exact absurd ((hlocking.enter henter).symm.trans hholds) Bool.false_ne_true
      · rcases hw with hw | hw | hw <;> cases hw
  | @kill t hkill hfree =>
      have hmoved : Signalled prog holds Wait Owes Assert (s.move t (s.thread t).rouse) := by
        by_cases hasleep : ∃ chan next, s.thread t = .asleep chan next
        · obtain ⟨chan, next, hplace⟩ := hasleep
          rw [hplace]
          refine h.move _ (fun l' c hl' => absurd (hplace.symm.trans hl') nofun) nofun fun c n hw => ?_
          rcases hw with hw | hw | hw <;> cases hw
        · have hsame : (s.thread t).rouse = s.thread t := by
            cases hplace : s.thread t with
            | asleep chan next => exact absurd ⟨chan, next, hplace⟩ hasleep
            | loc | releasing | marking | runnable | retaking => rfl
          rw [hsame, State.move, Function.update_eq_self]
          exact h
      exact ⟨fun _ _ => hkill, hmoved.assert, hmoved.waits⟩

theorem Signalled.reachable (hlocking : Locking prog holds)
    (hsignals : Signals prog holds Wait Owes Assert) (hreach : Reachable prog.system s) :
    Signalled prog holds Wait Owes Assert s := by
  induction hreach with
  | init hinit =>
      cases hinit
      refine ⟨nofun, fun t l ht hl => ?_, fun t c n hw => ?_⟩
      · cases ht
        exact absurd ((hlocking.outside (hlocking.start t)).symm.trans hl) Bool.false_ne_true
      · rcases hw with hw | hw | hw <;> cases hw
  | step label hreach hstep ih =>
      exact ih.perform hlocking hsignals (Locked.reachable hlocking hreach) (perform_move hstep)

/-- In a state in which no thread can go on, every thread in the code sleeps, and it waits for
something that has not come. -/
theorem waits_of_stuck (hlocking : Locking prog holds)
    (hsignals : Signals prog holds Wait Owes Assert) (hreach : Reachable prog.system s)
    (hstuck : ∀ u, run prog.code u s = none) (t : Thread) :
    (∃ l, s.thread t = .loc l ∧ prog.code l = .outside) ∨
      ∃ chan next, s.thread t = .asleep chan next ∧ Wait chan s.data := by
  have hlocked := Locked.reachable hlocking hreach
  have hall : ∀ t, (∃ l, s.thread t = .loc l ∧ prog.code l = .outside) ∨
      ∃ chan next, s.thread t = .asleep chan next := by
    intro t
    by_contra hnone
    obtain ⟨u, s', hrun⟩ := hlocked.exists_step (t := t) hlocking
      (fun chan next ht => hnone (.inr ⟨chan, next, ht⟩))
      fun l ht hop => hnone (.inl ⟨l, ht, hop⟩)
    rw [hstuck u] at hrun
    cases hrun
  refine (hall t).imp_right fun ⟨chan, next, ht⟩ => ⟨chan, next, ht, ?_⟩
  rcases (Signalled.reachable hlocking hsignals hreach).waits t chan next (.inr (.inr ht)) with
    hwait | ⟨u, l, hu, howes⟩
  · exact hwait
  · rcases hall u with ⟨l', hl', hop⟩ | ⟨c, n, hasleep⟩
    · cases hu.symm.trans hl'
      exact absurd ((hlocking.outside hop).symm.trans (hsignals.owes howes)) Bool.false_ne_true
    · cases hu.symm.trans hasleep

end Signals

end Monitor
