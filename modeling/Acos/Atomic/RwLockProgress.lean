import Mathlib.Algebra.Order.BigOperators.Group.Finset
import Acos.Atomic.RwLockExclusion

/-!
# The readers-writer lock does not deadlock

A writer holds `writers_lock` while it polls the counter, and it is the readers that lower the
counter. They leave through `readers_lock`, which no writer ever takes. So whoever holds
`readers_lock` can go on, then whoever holds `writers_lock` or a reader it waits for, and if both
locks are free every thread can go on.

The bound on the number of threads that exclusion needs plays no role here. If the counter wraps,
it is still zero only as the number of readers modulo `2 ^ 64`, and a counter that is not zero has
a reader behind it.
-/

namespace Acos.Atomic.Rw

open Transition Interleaving

variable {ι : Type} [Fintype ι] {state : State ι}

/-- The three words, for any number of threads. -/
structure Words (state : State ι) : Prop where
  writers : state.lock.writersLock.Counts (count Thread.holdsWritersLock state.threads)
  readers : state.lock.readersLock.Counts (count Thread.holdsReadersLock state.threads)
  counter : state.lock.readersCount = BitVec.ofNat 64 (count Thread.counted state.threads)

/-- The thread has worked through its sections. -/
def Thread.Finished (thread : Thread) : Prop := thread.pc = .outside ∧ thread.todo = []

theorem Words.exists_holdsReadersLock (hwords : Words state)
    (hlock : state.lock.readersLock.lock ≠ 0) :
    ∃ t, (state.threads t).holdsReadersLock = true :=
  exists_of_count_ne_zero (mt hwords.readers.lock_eq_zero_iff.mpr hlock)

theorem Words.exists_holdsWritersLock (hwords : Words state)
    (hlock : state.lock.writersLock.lock ≠ 0) :
    ∃ t, (state.threads t).holdsWritersLock = true :=
  exists_of_count_ne_zero (mt hwords.writers.lock_eq_zero_iff.mpr hlock)

theorem Words.exists_counted (hwords : Words state) (hcount : state.lock.readersCount ≠ 0) :
    ∃ t, (state.threads t).counted = true := by
  apply exists_of_count_ne_zero
  intro hzero
  apply hcount
  rw [hwords.counter, hzero]
  rfl

theorem Words.lock_eq_zero (hwords : Words state) (hfinished : ∀ t, (state.threads t).Finished) :
    state.lock.writersLock.lock = 0 ∧ state.lock.readersLock.lock = 0
      ∧ state.lock.readersCount = 0 := by
  have hzero : ∀ p : Thread → Bool, (∀ thread, thread.Finished → p thread = false) →
      count p state.threads = 0 := fun p hp =>
    count_eq_zero_iff.mpr fun t => hp _ (hfinished t)
  refine ⟨?_, ?_, ?_⟩
  · rw [hwords.writers.lock_eq_zero_iff]
    exact hzero _ fun thread h => by simp [Thread.holdsWritersLock, h.1]
  · rw [hwords.readers.lock_eq_zero_iff]
    exact hzero _ fun thread h => by simp [Thread.holdsReadersLock, h.1]
  · rw [hwords.counter, hzero _ fun thread h => by simp [Thread.counted, h.1]]
    rfl

/-! ### Work -/

/-- The instructions up to the end of the section, if no loop turns. -/
def Pc.rank : Pc → Nat
  | .outside => 0
  | .readLockSpin => 7
  | .readLockAdd => 6
  | .readLockRelease => 5
  | .reading => 4
  | .readUnlockSpin => 3
  | .readUnlockSub => 2
  | .readUnlockRelease => 1
  | .writeLockSpin => 4
  | .writeLockWait => 3
  | .writing => 2
  | .writeUnlockRelease => 1

def Thread.work (thread : Thread) : Nat := 8 * thread.todo.length + thread.pc.rank

/-- The next instruction is a turn of a loop that is not left. -/
def Thread.Waits (thread : Thread) (lock : RwLock) : Prop :=
  match thread.pc with
  | .readLockSpin | .writeLockSpin => lock.writersLock.lock ≠ 0
  | .readUnlockSpin => lock.readersLock.lock ≠ 0
  | .writeLockWait => lock.readersCount ≠ 0
  | _ => False

theorem next_work (thread : Thread) (lock : RwLock) (hfinished : ¬thread.Finished)
    (hwaits : ¬thread.Waits lock) :
    ∃ thread' lock', next thread lock = some (thread', lock') ∧ thread'.work < thread.work := by
  obtain ⟨pc, todo⟩ := thread
  cases pc with
  | outside =>
      cases todo with
      | nil => exact absurd ⟨rfl, rfl⟩ hfinished
      | cons first todo =>
          cases first <;> exact ⟨_, _, rfl, by simp [Thread.work, Pc.rank]; omega⟩
  | readLockSpin | writeLockSpin =>
      have hfree : (spinLockLock lock.writersLock).2 = true :=
        spinLockLock_snd_iff.mpr (not_not.mp hwaits)
      exact ⟨_, _, rfl, by simp [Thread.work, Pc.rank, hfree]⟩
  | readUnlockSpin =>
      have hfree : (spinLockLock lock.readersLock).2 = true :=
        spinLockLock_snd_iff.mpr (not_not.mp hwaits)
      exact ⟨_, _, rfl, by simp [Thread.work, Pc.rank, hfree]⟩
  | writeLockWait =>
      have hzero : lock.readersCount = 0 := not_not.mp hwaits
      exact ⟨_, _, rfl, by simp [Thread.work, Pc.rank, atomicLoad, hzero]⟩
  | readLockAdd | readLockRelease | reading | readUnlockSub | readUnlockRelease | writing
  | writeUnlockRelease => exact ⟨_, _, rfl, by simp [Thread.work, Pc.rank]⟩

/-- The work of all threads. -/
def State.work (state : State ι) : Nat := ∑ t, (state.threads t).work

/-! ### Somebody can go on -/

/-- The holder of `readers_lock` never waits. -/
theorem Thread.not_waits_of_holdsReadersLock {thread : Thread} {lock : RwLock}
    (hholds : thread.holdsReadersLock = true) : ¬thread.Waits lock ∧ ¬thread.Finished := by
  obtain ⟨pc, todo⟩ := thread
  cases pc <;> simp_all [Thread.holdsReadersLock, Thread.Waits, Thread.Finished]

/-- A reader that is counted waits only for `readers_lock`. -/
theorem Thread.not_waits_of_counted {thread : Thread} {lock : RwLock}
    (hcounted : thread.counted = true) (hlock : lock.readersLock.lock = 0) :
    ¬thread.Waits lock ∧ ¬thread.Finished := by
  obtain ⟨pc, todo⟩ := thread
  cases pc <;> simp_all [Thread.counted, Thread.Waits, Thread.Finished]

/-- The holder of `writers_lock` waits only for the counter. -/
theorem Thread.not_waits_of_holdsWritersLock {thread : Thread} {lock : RwLock}
    (hholds : thread.holdsWritersLock = true) (hcount : lock.readersCount = 0) :
    ¬thread.Waits lock ∧ ¬thread.Finished := by
  obtain ⟨pc, todo⟩ := thread
  cases pc <;> simp_all [Thread.holdsWritersLock, Thread.Waits, Thread.Finished]

theorem Words.exists_not_waits (hwords : Words state)
    (hunfinished : ∃ t, ¬(state.threads t).Finished) :
    ∃ t, ¬(state.threads t).Waits state.lock ∧ ¬(state.threads t).Finished := by
  by_cases hreaders : state.lock.readersLock.lock = 0
  · by_cases hcount : state.lock.readersCount = 0
    · by_cases hwriters : state.lock.writersLock.lock = 0
      · obtain ⟨t, ht⟩ := hunfinished
        refine ⟨t, ?_, ht⟩
        unfold Thread.Waits
        cases (state.threads t).pc <;> simp [hreaders, hcount, hwriters]
      · obtain ⟨t, ht⟩ := hwords.exists_holdsWritersLock hwriters
        exact ⟨t, Thread.not_waits_of_holdsWritersLock ht hcount⟩
    · obtain ⟨t, ht⟩ := hwords.exists_counted hcount
      exact ⟨t, Thread.not_waits_of_counted ht hreaders⟩
  · obtain ⟨t, ht⟩ := hwords.exists_holdsReadersLock hreaders
    exact ⟨t, Thread.not_waits_of_holdsReadersLock ht⟩

variable [DecidableEq ι]

theorem Words.init (state : State ι) (hinit : (system ι).init state) : Words state := by
  have hinv := Inv.init state hinit
  refine ⟨hinv.writers, hinv.readers, ?_⟩
  rw [← hinv.counter, BitVec.ofNat_toNat, BitVec.setWidth_eq]

theorem Words.step (t : ι) (state state' : State ι) (hwords : Words state)
    (hstep : advance t state = some state') : Words state' := by
  obtain ⟨⟨thread, lock⟩, hnext, rfl⟩ := Option.map_eq_some_iff.mp hstep
  refine ⟨?_, ?_, ?_⟩
  · exact hwords.writers.move (next_writersLock hnext)
      (count_update Thread.holdsWritersLock state.threads t thread) count_pos_of_mem
  · exact hwords.readers.move (next_readersLock hnext)
      (count_update Thread.holdsReadersLock state.threads t thread) count_pos_of_mem
  · have hcount := count_update Thread.counted state.threads t thread
    change lock.readersCount = _
    rcases next_readersCount hnext with ⟨hword, hsame⟩ | ⟨hword, hold, hnew, _⟩ |
      ⟨hword, hold, hnew⟩
    · rw [hsame] at hcount
      rw [hword, hwords.counter, Nat.add_right_cancel hcount]
    · rw [hold, hnew, Bool.toNat_false, Bool.toNat_true, Nat.add_zero] at hcount
      rw [hword, hwords.counter, hcount, BitVec.ofNat_add]
      rfl
    · rw [hold, hnew, Bool.toNat_false, Bool.toNat_true, Nat.add_zero] at hcount
      rw [hword, hwords.counter, ← Nat.add_zero (count Thread.counted state.threads), ← hcount,
        BitVec.ofNat_add]
      exact BitVec.add_sub_cancel _ _

theorem Words.exists_advance (hwords : Words state)
    (hunfinished : ¬∀ t, (state.threads t).Finished) :
    ∃ t next, advance t state = some next ∧ next.work < state.work := by
  obtain ⟨t, hwaits, hfinished⟩ := hwords.exists_not_waits (not_forall.mp hunfinished)
  obtain ⟨thread, lock, hnext, hless⟩ := next_work _ state.lock hfinished hwaits
  refine ⟨t, ⟨lock, Function.update state.threads t thread⟩, ?_, ?_⟩
  · rw [advance, hnext]
    rfl
  · apply Finset.sum_lt_sum
    · intro u _
      by_cases hut : u = t
      · subst hut
        simpa using hless.le
      · simp [hut]
    · refine ⟨t, Finset.mem_univ t, ?_⟩
      simpa using hless

/-- **No deadlock.** From every reachable state the threads can be scheduled so that all of them
work through their sections, and when they have, both locks are free and no reader is counted. -/
theorem rwLock_finishes {state : State ι} (hreach : Reachable (system ι) state) :
    (∃ schedule last, execute advance schedule state = some last
        ∧ ∀ t, (last.threads t).Finished) ∧
      ((∀ t, (state.threads t).Finished) → state.lock.writersLock.lock = 0
        ∧ state.lock.readersLock.lock = 0 ∧ state.lock.readersCount = 0) := by
  have hwords : Words state := hreach.invariant Words.init Words.step
  refine ⟨?_, hwords.lock_eq_zero⟩
  exact exists_execute_of_progress State.work Words.step
    (fun _ hinv hunfinished => hinv.exists_advance hunfinished) hwords

/-- A writer holds `writers_lock` and polls while a reader is inside. -/
theorem rwLock_finishes_polling_writer :
    ∃ state : State (Fin 2), Reachable (system (Fin 2)) state
      ∧ (state.threads 0).pc = .writeLockWait ∧ (state.threads 1).pc = .reading
      ∧ ∃ schedule last, execute advance schedule state = some last
          ∧ ∀ t, (last.threads t).Finished := by
  let start : State (Fin 2) :=
    { lock := rwLockInit { readersCount := 7, readersLock := ⟨1⟩, writersLock := ⟨1⟩ }
      threads := fun t => { pc := .outside, todo := [if t = 0 then .write else .read] } }
  have hstart : Reachable (system (Fin 2)) start := .init ⟨⟨_, rfl⟩, fun _ => rfl⟩
  have hexecute : execute advance [1, 1, 1, 1, 0, 0, 0] start = some _ := rfl
  have hreach := hstart.execute hexecute
  exact ⟨_, hreach, rfl, rfl, (rwLock_finishes hreach).1⟩

end Acos.Atomic.Rw
