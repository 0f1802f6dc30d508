import Acos.Lib.Interleaving
import Acos.Atomic.SpinLock

/-!
# Two counters under a spinlock

The threads of the spinlock's test program. Each of them takes the lock, asserts that the two
counters are equal, increments both, and gives the lock back. An increment is a load and a store,
so an update would be lost if another thread came in between.

Each counter is the number of stores made to it, added up over the threads. Inside the lock the two
sums may differ by the store that its owner has made to the first counter only; outside they are
equal.
-/

namespace Acos.Atomic.Summer

open Transition Interleaving

/-- The global variables. -/
structure Memory where
  lock : SpinLock
  first : Word
  second : Word
  deriving DecidableEq

/-- The next instruction of `Summer`, with the value its registers hold for it. -/
inductive Pc where
  /-- The test of the loop. -/
  | test
  /-- `SpinLock_Lock`: the exchange. -/
  | lock
  /-- The assertion: the load of `first`. -/
  | assertFirst
  /-- The assertion: the load of `second` and the comparison. -/
  | assertSecond (first : Word)
  /-- `++first`. -/
  | loadFirst
  | storeFirst (value : Word)
  /-- `++second`. -/
  | loadSecond
  | storeSecond (value : Word)
  /-- `SpinLock_Unlock`: the compare-and-swap. -/
  | unlock
  | done
  /-- The assertion has failed. -/
  | failed
  deriving DecidableEq

structure Thread where
  pc : Pc
  i : Nat
  deriving DecidableEq

/-- One instruction of one thread. -/
def next (iterCount : Nat) (thread : Thread) (memory : Memory) : Option (Thread × Memory) :=
  match thread.pc with
  | .test => some ({ thread with pc := if thread.i < iterCount then .lock else .done }, memory)
  | .lock =>
      let turn := spinLockLock memory.lock
      some ({ thread with pc := if turn.2 then .assertFirst else .lock },
        { memory with lock := turn.1 })
  | .assertFirst => some ({ thread with pc := .assertSecond memory.first }, memory)
  | .assertSecond first =>
      some ({ thread with pc := if first = memory.second then .loadFirst else .failed }, memory)
  | .loadFirst => some ({ thread with pc := .storeFirst memory.first }, memory)
  | .storeFirst value =>
      some ({ thread with pc := .loadSecond }, { memory with first := value + 1 })
  | .loadSecond => some ({ thread with pc := .storeSecond memory.second }, memory)
  | .storeSecond value =>
      some ({ thread with pc := .unlock }, { memory with second := value + 1 })
  | .unlock =>
      some ({ pc := .test, i := thread.i + 1 },
        { memory with lock := spinLockUnlock memory.lock })
  | .done => none
  | .failed => none

structure State (ι : Type) where
  memory : Memory
  threads : ι → Thread

variable {ι : Type} [DecidableEq ι] {iterCount : Nat}

/-- Thread `t` executes its next instruction. -/
def advance (iterCount : Nat) (t : ι) (state : State ι) : Option (State ι) :=
  (next iterCount (state.threads t) state.memory).map fun moved =>
    { memory := moved.2, threads := Function.update state.threads t moved.1 }

/-- The counters are zero, the lock has been initialised and every thread is at the start of its
loop. A thread that `RunThreads` has not created yet is one that has not moved. -/
def Initial (state : State ι) : Prop :=
  (∃ lock, state.memory = { lock := spinLockInit lock, first := 0, second := 0 })
    ∧ ∀ t, state.threads t = { pc := .test, i := 0 }

def system (ι : Type) [DecidableEq ι] (iterCount : Nat) : System (State ι) ι :=
  .ofFunction Initial (advance iterCount)

/-- `SpinLock_Lock` has returned and the compare-and-swap of `SpinLock_Unlock` has not been made. -/
def Thread.inside (thread : Thread) : Bool :=
  match thread.pc with
  | .test | .lock | .done => false
  | _ => true

/-- The stores the thread has made to `first`. -/
def Thread.firsts (thread : Thread) : Nat :=
  match thread.pc with
  | .loadSecond | .storeSecond _ | .unlock => thread.i + 1
  | _ => thread.i

/-- The stores the thread has made to `second`. -/
def Thread.seconds (thread : Thread) : Nat :=
  match thread.pc with
  | .unlock => thread.i + 1
  | _ => thread.i

/-- What the thread has loaded is still in memory, and its assertion has not failed. -/
def Thread.Current (thread : Thread) (memory : Memory) : Prop :=
  match thread.pc with
  | .assertSecond value | .storeFirst value => value = memory.first
  | .storeSecond value => value = memory.second
  | .failed => False
  | _ => True

/-- How far the loop can have got. -/
def Thread.InRange (iterCount : Nat) (thread : Thread) : Prop :=
  match thread.pc with
  | .test => thread.i ≤ iterCount
  | .done => thread.i = iterCount
  | _ => thread.i < iterCount

theorem Thread.current_of_outside {thread : Thread} (houtside : thread.inside = false)
    (memory : Memory) : thread.Current memory := by
  obtain ⟨pc, i⟩ := thread
  cases pc <;> first | exact trivial | cases houtside

theorem Thread.Current.congr {thread : Thread} {memory memory' : Memory}
    (hcurrent : thread.Current memory) (hfirst : memory'.first = memory.first)
    (hsecond : memory'.second = memory.second) : thread.Current memory' := by
  unfold Thread.Current at hcurrent ⊢
  rwa [hfirst, hsecond]

theorem Thread.firsts_of_outside {thread : Thread} (houtside : thread.inside = false) :
    thread.firsts = thread.seconds := by
  obtain ⟨pc, i⟩ := thread
  cases pc <;> first | rfl | cases houtside

/-! ### What one instruction does -/

section Next

variable {thread thread' : Thread} {memory memory' : Memory}

theorem next_lock (hnext : next iterCount thread memory = some (thread', memory')) :
    SpinLock.Move memory.lock thread.inside memory'.lock thread'.inside := by
  obtain ⟨pc, i⟩ := thread
  cases pc with
  | test | assertSecond =>
      obtain ⟨rfl, rfl⟩ := hnext
      simp only [Thread.inside]
      split_ifs <;> exact .stay _ _
  | lock =>
      simp only [next, Option.some.injEq, Prod.mk.injEq] at hnext
      obtain ⟨rfl, rfl⟩ := hnext
      have hmove := SpinLock.Move.ofLock memory.lock
      cases hfree : (spinLockLock memory.lock).2 <;> rw [hfree] at hmove <;>
        simpa only [Thread.inside, hfree, if_true, if_false, Bool.false_eq_true] using hmove
  | unlock =>
      obtain ⟨rfl, rfl⟩ := hnext
      exact .release _
  | assertFirst | loadFirst | storeFirst | loadSecond | storeSecond =>
      obtain ⟨rfl, rfl⟩ := hnext
      exact .stay _ _
  | done | failed => cases hnext

/-- Outside the lock no counter is written. -/
theorem next_outside (hnext : next iterCount thread memory = some (thread', memory'))
    (houtside : thread.inside = false) :
    memory'.first = memory.first ∧ memory'.second = memory.second := by
  obtain ⟨pc, i⟩ := thread
  cases pc with
  | test | lock =>
      obtain ⟨rfl, rfl⟩ := hnext
      exact ⟨rfl, rfl⟩
  | done | failed => cases hnext
  | assertFirst | assertSecond | loadFirst | storeFirst | loadSecond | storeSecond | unlock =>
      cases houtside

/-- A counter grows with the number of stores to it, if the owner of the lock has loaded it as it
is. -/
theorem next_counters (hnext : next iterCount thread memory = some (thread', memory'))
    (hcurrent : thread.Current memory) :
    memory'.first + .ofNat 64 thread.firsts = memory.first + .ofNat 64 thread'.firsts
      ∧ memory'.second + .ofNat 64 thread.seconds
        = memory.second + .ofNat 64 thread'.seconds := by
  have hstore : ∀ (cell : Word) (n : Nat),
      cell + 1 + BitVec.ofNat 64 n = cell + BitVec.ofNat 64 (n + 1) := by
    intro cell n
    rw [BitVec.ofNat_add, BitVec.add_assoc, BitVec.add_comm 1]
    rfl
  obtain ⟨pc, i⟩ := thread
  cases pc with
  | test | lock | assertSecond =>
      simp only [next] at hnext
      split_ifs at hnext <;> obtain ⟨rfl, rfl⟩ := hnext <;> exact ⟨rfl, rfl⟩
  | storeFirst value =>
      obtain ⟨rfl, rfl⟩ := hnext
      obtain rfl : value = memory.first := hcurrent
      exact ⟨hstore _ i, rfl⟩
  | storeSecond value =>
      obtain ⟨rfl, rfl⟩ := hnext
      obtain rfl : value = memory.second := hcurrent
      exact ⟨rfl, hstore _ i⟩
  | assertFirst | loadFirst | loadSecond | unlock =>
      obtain ⟨rfl, rfl⟩ := hnext
      exact ⟨rfl, rfl⟩
  | done | failed => cases hnext

/-- The owner of the lock keeps what it has loaded; its assertion compares two counters with the
same number of stores. -/
theorem next_current (hnext : next iterCount thread memory = some (thread', memory'))
    (hcurrent : thread.Current memory)
    (hequal : thread.inside = true → thread.firsts = thread.seconds →
      memory.first = memory.second) :
    thread'.Current memory' := by
  obtain ⟨pc, i⟩ := thread
  cases pc with
  | test | lock =>
      simp only [next] at hnext
      split_ifs at hnext <;> obtain ⟨rfl, rfl⟩ := hnext <;> exact trivial
  | assertSecond value =>
      obtain ⟨rfl, rfl⟩ := hnext
      have hvalue : value = memory.second := Eq.trans hcurrent (hequal rfl rfl)
      simp only [Thread.Current, if_pos hvalue]
  | assertFirst | loadFirst | loadSecond =>
      obtain ⟨rfl, rfl⟩ := hnext
      exact rfl
  | storeFirst | storeSecond | unlock =>
      obtain ⟨rfl, rfl⟩ := hnext
      exact trivial
  | done | failed => cases hnext

theorem next_inRange (hnext : next iterCount thread memory = some (thread', memory'))
    (hrange : thread.InRange iterCount) : thread'.InRange iterCount := by
  obtain ⟨pc, i⟩ := thread
  cases pc with
  | test =>
      obtain ⟨rfl, rfl⟩ := hnext
      simp only [Thread.InRange] at hrange ⊢
      by_cases hlt : i < iterCount
      · simp only [if_pos hlt]
        exact hlt
      · simp only [if_neg hlt]
        omega
  | lock | assertSecond =>
      simp only [next] at hnext
      split_ifs at hnext <;> obtain ⟨rfl, rfl⟩ := hnext <;> exact hrange
  | assertFirst | loadFirst | storeFirst | loadSecond | storeSecond | unlock =>
      obtain ⟨rfl, rfl⟩ := hnext
      exact hrange
  | done | failed => cases hnext

end Next

/-! ### The invariant -/

section Inv

variable [Fintype ι] {state : State ι}

structure Inv (iterCount : Nat) (state : State ι) : Prop where
  exclusive : state.memory.lock.Counts (count Thread.inside state.threads)
  first : state.memory.first = .ofNat 64 (total Thread.firsts state.threads)
  second : state.memory.second = .ofNat 64 (total Thread.seconds state.threads)
  current : ∀ t, (state.threads t).Current state.memory
  inRange : ∀ t, (state.threads t).InRange iterCount

theorem Inv.init (state : State ι) (hinit : (system ι iterCount).init state) :
    Inv iterCount state := by
  obtain ⟨⟨lock, hmemory⟩, hthreads⟩ := hinit
  have houtside : ∀ t, (state.threads t).inside = false := fun t => by rw [hthreads t]; rfl
  have htotal : ∀ f : Thread → Nat, f { pc := .test, i := 0 } = 0 → total f state.threads = 0 := by
    intro f hf
    rw [total_const fun t => (congrArg f (hthreads t)).trans hf, Nat.mul_zero]
  refine ⟨?_, ?_, ?_, fun t => Thread.current_of_outside (houtside t) _, fun t => ?_⟩
  · rw [count_eq_zero_iff.mpr houtside, hmemory]
    exact SpinLock.Counts.init lock
  · rw [htotal _ rfl, hmemory]
    rfl
  · rw [htotal _ rfl, hmemory]
    rfl
  · rw [hthreads t]
    exact Nat.zero_le iterCount

omit [DecidableEq ι] in
/-- The thread inside the lock is alone there. -/
theorem Inv.outside_of_ne (hinv : Inv iterCount state) {t u : ι}
    (ht : (state.threads t).inside = true) (hut : u ≠ t) :
    (state.threads u).inside = false :=
  Bool.eq_false_iff.mpr fun hu => hut (eq_of_count_le_one hinv.exclusive.2 hu ht)

omit [DecidableEq ι] in
/-- The counters are equal if the thread inside the lock has stored to both of them equally often,
since the others have. -/
theorem Inv.first_eq_second (hinv : Inv iterCount state) {t : ι}
    (ht : (state.threads t).inside = true)
    (hequal : (state.threads t).firsts = (state.threads t).seconds) :
    state.memory.first = state.memory.second := by
  rw [hinv.first, hinv.second]
  refine congrArg _ (total_congr fun u => ?_)
  by_cases hut : u = t
  · rw [hut, hequal]
  · exact Thread.firsts_of_outside (hinv.outside_of_ne ht hut)

/-- The sum over the threads follows the counter. -/
theorem counter_update {f : Thread → Nat} {threads : ι → Thread} {t : ι} {thread : Thread}
    {cell cell' : Word} (hcell : cell = .ofNat 64 (total f threads))
    (hmove : cell' + .ofNat 64 (f (threads t)) = cell + .ofNat 64 (f thread)) :
    cell' = .ofNat 64 (total f (Function.update threads t thread)) := by
  refine (BitVec.add_left_inj (.ofNat 64 (f (threads t)))).mp ?_
  calc
    cell' + .ofNat 64 (f (threads t)) = .ofNat 64 (total f threads) + .ofNat 64 (f thread) := by
      rw [hmove, hcell]
    _ = .ofNat 64 (total f threads + f thread) := (BitVec.ofNat_add _ _).symm
    _ = .ofNat 64 (total f (Function.update threads t thread) + f (threads t)) := by
      rw [total_update]
    _ = _ := BitVec.ofNat_add _ _

/-- What the threads have loaded stays in memory: those outside have loaded nothing, and while one
is inside no other moves the counters. -/
theorem Inv.current_step (hinv : Inv iterCount state) {t : ι} {thread : Thread} {memory : Memory}
    (hnext : next iterCount (state.threads t) state.memory = some (thread, memory)) :
    ∀ u, (Function.update state.threads t thread u).Current memory := by
  refine (Function.forall_update_iff _ fun _ moved => Thread.Current moved memory).mpr ⟨?_, ?_⟩
  · exact next_current hnext (hinv.current t) hinv.first_eq_second
  · intro u hut
    cases hinside : (state.threads t).inside with
    | false =>
        obtain ⟨hfirst, hsecond⟩ := next_outside hnext hinside
        exact (hinv.current u).congr hfirst hsecond
    | true => exact Thread.current_of_outside (hinv.outside_of_ne hinside hut) memory

theorem Inv.step (t : ι) (state state' : State ι) (hinv : Inv iterCount state)
    (hstep : (system ι iterCount).step t state state') : Inv iterCount state' := by
  obtain ⟨⟨thread, memory⟩, hnext, rfl⟩ := Option.map_eq_some_iff.mp hstep
  obtain ⟨hfirst, hsecond⟩ := next_counters hnext (hinv.current t)
  refine ⟨?_, counter_update hinv.first hfirst, counter_update hinv.second hsecond,
    hinv.current_step hnext, ?_⟩
  · exact hinv.exclusive.move (next_lock hnext)
      (count_update Thread.inside state.threads t thread) count_pos_of_mem
  · refine (Function.forall_update_iff _ fun _ moved => Thread.InRange iterCount moved).mpr ?_
    exact ⟨next_inRange hnext (hinv.inRange t), fun u _ => hinv.inRange u⟩

omit [DecidableEq ι] in
/-- Threads that are done have stored to each counter once in every iteration. -/
theorem Inv.total_of_done (hinv : Inv iterCount state)
    (hdone : ∀ t, (state.threads t).pc = .done) {f : Thread → Nat}
    (hf : ∀ i, f { pc := .done, i } = i) :
    total f state.threads = Fintype.card ι * iterCount := by
  refine total_const fun t => ?_
  have hrange := hinv.inRange t
  have hpc := hdone t
  generalize state.threads t = thread at hrange hpc
  obtain ⟨pc, i⟩ := thread
  cases hpc
  exact (hf i).trans hrange

end Inv

/-- **No lost update.** In every reachable state at most one thread is between `SpinLock_Lock` and
`SpinLock_Unlock`, and no assertion has failed. When all threads are done, each counter has been
incremented once for every iteration of every thread. -/
theorem summer_no_lost_update [Fintype ι] {state : State ι}
    (hreach : Reachable (system ι iterCount) state) :
    (∀ t u, (state.threads t).inside = true → (state.threads u).inside = true → t = u)
      ∧ (∀ t, (state.threads t).pc ≠ .failed)
      ∧ ((∀ t, (state.threads t).pc = .done) →
        state.memory.first = .ofNat 64 (Fintype.card ι * iterCount)
          ∧ state.memory.second = .ofNat 64 (Fintype.card ι * iterCount)) := by
  have hinv : Inv iterCount state := hreach.invariant Inv.init Inv.step
  refine ⟨fun t u => eq_of_count_le_one hinv.exclusive.2, fun t hfailed => ?_, fun hdone => ?_⟩
  · have hcurrent := hinv.current t
    rw [Thread.Current, hfailed] at hcurrent
    exact hcurrent
  · rw [hinv.first, hinv.second]
    exact ⟨congrArg _ (hinv.total_of_done hdone fun _ => rfl),
      congrArg _ (hinv.total_of_done hdone fun _ => rfl)⟩

/-- Two threads with one iteration each; the second one spins while the first is inside. -/
theorem summer_no_lost_update_two :
    ∃ state : State (Fin 2), Reachable (system (Fin 2) 1) state
      ∧ (∀ t, (state.threads t).pc = .done)
      ∧ state.memory.first = 2 ∧ state.memory.second = 2 := by
  let start : State (Fin 2) :=
    { memory := { lock := spinLockInit ⟨1⟩, first := 0, second := 0 }
      threads := fun _ => { pc := .test, i := 0 } }
  have hstart : Reachable (system (Fin 2) 1) start := .init ⟨⟨_, rfl⟩, fun _ => rfl⟩
  have hexecute : execute (advance 1)
      [0, 1, 0, 1, 0, 1, 0, 0, 0, 0, 0, 1, 0, 1, 1, 1, 0, 1, 1, 1, 1, 1, 1] start = some _ := rfl
  have hreach := hstart.execute hexecute
  have hdone := (summer_no_lost_update hreach).2.2 (by decide)
  exact ⟨_, hreach, by decide, hdone⟩

end Acos.Atomic.Summer
