import Acos.Atomic.RwLock

/-!
# Exclusion of the readers-writer lock

Readers enter under `writers_lock` and leave under `readers_lock`, and a writer only polls the
counter. The invariant ties the three words to the program counters: each lock word counts the
threads inside its region, the counter counts the readers, and it is zero as long as a writer is in
its section, because only a thread inside the region of `writers_lock` could raise it.
-/

namespace Acos.Atomic.Rw

open Transition Interleaving

variable {ι : Type} [Fintype ι] [DecidableEq ι]

structure Inv (state : State ι) : Prop where
  writers : state.lock.writersLock.Counts (count Thread.holdsWritersLock state.threads)
  readers : state.lock.readersLock.Counts (count Thread.holdsReadersLock state.threads)
  counter : state.lock.readersCount.toNat = count Thread.counted state.threads
  waited : ∀ t, (state.threads t).pc = .writing → count Thread.counted state.threads = 0

theorem Inv.init (state : State ι) (hinit : (system ι).init state) : Inv state := by
  obtain ⟨⟨memory, hlock⟩, hpc⟩ := hinit
  have hzero : ∀ p : Thread → Bool, (∀ thread, thread.pc = .outside → p thread = false) →
      count p state.threads = 0 := fun p hp =>
    count_eq_zero_iff.mpr fun t => hp _ (hpc t)
  have hcounted := hzero Thread.counted fun thread h => by simp [Thread.counted, h]
  refine ⟨?_, ?_, ?_, ?_⟩
  · rw [hlock, hzero _ fun thread h => by simp [Thread.holdsWritersLock, h]]
    exact SpinLock.Counts.init _
  · rw [hlock, hzero _ fun thread h => by simp [Thread.holdsReadersLock, h]]
    exact SpinLock.Counts.init _
  · rw [hlock, hcounted]
    rfl
  · exact fun _ _ => hcounted

/-! ### What one instruction does

Each word moves at the instructions that name it, and the place of the thread moves with it. -/

section Next

variable {thread thread' : Thread} {lock lock' : RwLock}

/-- Outside of the sections a thread only starts with its next one. -/
theorem next_outside {todo : List Section}
    (hnext : next ⟨.outside, todo⟩ lock = some (thread', lock')) :
    lock' = lock ∧ (thread'.pc = .readLockSpin ∨ thread'.pc = .writeLockSpin) := by
  rcases todo with _ | ⟨_ | _, todo⟩
  · cases hnext
  · cases hnext
    exact ⟨rfl, .inl rfl⟩
  · cases hnext
    exact ⟨rfl, .inr rfl⟩

theorem next_writersLock (hnext : next thread lock = some (thread', lock')) :
    SpinLock.Move lock.writersLock thread.holdsWritersLock
      lock'.writersLock thread'.holdsWritersLock := by
  obtain ⟨pc, todo⟩ := thread
  cases pc with
  | outside =>
      obtain ⟨rfl, hpc⟩ := next_outside hnext
      have hnot : thread'.holdsWritersLock = false := by
        rcases hpc with hpc | hpc <;> rw [Thread.holdsWritersLock, hpc]
      rw [hnot]
      exact .stay _ false
  | readLockSpin | writeLockSpin =>
      simp only [next, Option.some.injEq, Prod.mk.injEq] at hnext
      obtain ⟨rfl, rfl⟩ := hnext
      have hmove := SpinLock.Move.ofLock lock.writersLock
      cases hfree : (spinLockLock lock.writersLock).2 <;> rw [hfree] at hmove <;>
        simpa only [Thread.holdsWritersLock, hfree, if_true, if_false, Bool.false_eq_true]
          using hmove
  | readLockRelease | writeUnlockRelease =>
      obtain ⟨rfl, rfl⟩ := hnext
      exact .release _
  | readUnlockSpin | writeLockWait =>
      obtain ⟨rfl, rfl⟩ := hnext
      simp only [Thread.holdsWritersLock]
      split_ifs <;> exact .stay _ _
  | readLockAdd | writing | reading | readUnlockSub | readUnlockRelease =>
      obtain ⟨rfl, rfl⟩ := hnext
      exact .stay _ _

theorem next_readersLock (hnext : next thread lock = some (thread', lock')) :
    SpinLock.Move lock.readersLock thread.holdsReadersLock
      lock'.readersLock thread'.holdsReadersLock := by
  obtain ⟨pc, todo⟩ := thread
  cases pc with
  | outside =>
      obtain ⟨rfl, hpc⟩ := next_outside hnext
      have hnot : thread'.holdsReadersLock = false := by
        rcases hpc with hpc | hpc <;> rw [Thread.holdsReadersLock, hpc]
      rw [hnot]
      exact .stay _ false
  | readUnlockSpin =>
      simp only [next, Option.some.injEq, Prod.mk.injEq] at hnext
      obtain ⟨rfl, rfl⟩ := hnext
      have hmove := SpinLock.Move.ofLock lock.readersLock
      cases hfree : (spinLockLock lock.readersLock).2 <;> rw [hfree] at hmove <;>
        simpa only [Thread.holdsReadersLock, hfree, if_true, if_false, Bool.false_eq_true]
          using hmove
  | readUnlockRelease =>
      obtain ⟨rfl, rfl⟩ := hnext
      exact .release _
  | readLockSpin | writeLockSpin | writeLockWait =>
      obtain ⟨rfl, rfl⟩ := hnext
      simp only [Thread.holdsReadersLock]
      split_ifs <;> exact .stay _ _
  | readLockAdd | readLockRelease | reading | readUnlockSub | writing | writeUnlockRelease =>
      obtain ⟨rfl, rfl⟩ := hnext
      exact .stay _ _

/-- Only the increment of `ReadLock`, inside the region of `writers_lock`, raises the counter. -/
theorem next_readersCount (hnext : next thread lock = some (thread', lock')) :
    (lock'.readersCount = lock.readersCount ∧ thread'.counted = thread.counted) ∨
    (lock'.readersCount = lock.readersCount + 1 ∧ thread.counted = false
      ∧ thread'.counted = true ∧ thread.holdsWritersLock = true) ∨
    (lock'.readersCount = lock.readersCount - 1 ∧ thread.counted = true
      ∧ thread'.counted = false) := by
  obtain ⟨pc, todo⟩ := thread
  cases pc with
  | outside =>
      obtain ⟨rfl, hpc⟩ := next_outside hnext
      refine Or.inl ⟨rfl, ?_⟩
      rcases hpc with hpc | hpc <;> rw [Thread.counted, hpc] <;> rfl
  | readLockAdd =>
      obtain ⟨rfl, rfl⟩ := hnext
      exact Or.inr (Or.inl ⟨rfl, rfl, rfl, rfl⟩)
  | readUnlockSub =>
      obtain ⟨rfl, rfl⟩ := hnext
      exact Or.inr (Or.inr ⟨rfl, rfl, rfl⟩)
  | readLockSpin | readUnlockSpin | writeLockSpin | writeLockWait =>
      simp only [next, Option.some.injEq, Prod.mk.injEq] at hnext
      obtain ⟨rfl, rfl⟩ := hnext
      refine Or.inl ⟨rfl, ?_⟩
      simp only [Thread.counted]
      split_ifs <;> rfl
  | readLockRelease | reading | readUnlockRelease | writing | writeUnlockRelease =>
      obtain ⟨rfl, rfl⟩ := hnext
      exact Or.inl ⟨rfl, rfl⟩

/-- A thread enters its write section only by a load that finds the counter zero. -/
theorem next_writing (hnext : next thread lock = some (thread', lock'))
    (hwriting : thread'.pc = .writing) :
    lock.readersCount = 0 ∧ lock'.readersCount = lock.readersCount := by
  obtain ⟨pc, todo⟩ := thread
  cases pc with
  | writeLockWait =>
      obtain ⟨rfl, rfl⟩ := hnext
      refine ⟨?_, rfl⟩
      by_contra hne
      simp only [atomicLoad, bne_iff_ne, ne_eq, hne, not_false_iff, if_true, reduceCtorEq]
        at hwriting
  | outside =>
      obtain ⟨-, hpc⟩ := next_outside hnext
      rcases hpc with hpc | hpc <;> cases hpc.symm.trans hwriting
  | readLockSpin | readUnlockSpin | writeLockSpin =>
      simp only [next, Option.some.injEq, Prod.mk.injEq] at hnext
      obtain ⟨rfl, rfl⟩ := hnext
      simp only at hwriting
      split_ifs at hwriting
  | readLockAdd | readLockRelease | reading | readUnlockSub | readUnlockRelease | writing
  | writeUnlockRelease =>
      obtain ⟨rfl, rfl⟩ := hnext
      cases hwriting

end Next

section Step

variable {state : State ι} {t : ι} {thread : Thread} {lock : RwLock}

theorem Inv.counter_step (hcard : Fintype.card ι < 2 ^ 63) (hinv : Inv state)
    (hnext : next (state.threads t) state.lock = some (thread, lock)) :
    lock.readersCount.toNat
      = count Thread.counted (Function.update state.threads t thread) := by
  have hcount := count_update Thread.counted state.threads t thread
  have hbound := count_le_card Thread.counted (Function.update state.threads t thread)
  have hcounter := hinv.counter
  rcases next_readersCount hnext with ⟨hword, hsame⟩ | ⟨hword, hold, hnew, _⟩ |
    ⟨hword, hold, hnew⟩
  · rw [hsame] at hcount
    rw [hword, hcounter, Nat.add_right_cancel hcount]
  · rw [hold, hnew, Bool.toNat_false, Bool.toNat_true, Nat.add_zero] at hcount
    rw [hword, BitVec.toNat_add, hcounter, hcount, show (1 : Word).toNat = 1 from rfl]
    exact Nat.mod_eq_of_lt (by omega)
  · rw [hold, hnew, Bool.toNat_false, Bool.toNat_true] at hcount
    have hlt := state.lock.readersCount.isLt
    rw [hword, BitVec.toNat_sub, hcounter, show (1 : Word).toNat = 1 from rfl]
    omega

/-- Nobody raises the counter while a writer is in its section: the increment needs the region of
`writers_lock`, which the writer occupies. -/
theorem Inv.waited_step (hcard : Fintype.card ι < 2 ^ 63) (hinv : Inv state)
    (hnext : next (state.threads t) state.lock = some (thread, lock)) (u : ι)
    (hwriting : (Function.update state.threads t thread u).pc = .writing) :
    count Thread.counted (Function.update state.threads t thread) = 0 := by
  have hafter := hinv.counter_step hcard hnext
  by_cases hut : u = t
  · subst hut
    rw [Function.update_self] at hwriting
    obtain ⟨hzero, hsame⟩ := next_writing hnext hwriting
    rw [← hafter, hsame, hzero]
    rfl
  · rw [Function.update_of_ne hut] at hwriting
    have hempty := hinv.waited u hwriting
    have hcount := count_update Thread.counted state.threads t thread
    rcases next_readersCount hnext with ⟨_, hsame⟩ | ⟨_, _, _, hholds⟩ | ⟨_, hold, _⟩
    · rw [hsame] at hcount
      rw [Nat.add_right_cancel hcount, hempty]
    · have huholds : (state.threads u).holdsWritersLock = true := by
        simp [Thread.holdsWritersLock, hwriting]
      exact absurd (eq_of_count_le_one hinv.writers.2 huholds hholds) hut
    · have hpos := count_pos_of_mem hold
      omega

theorem Inv.step (hcard : Fintype.card ι < 2 ^ 63) (t : ι) (state state' : State ι)
    (hinv : Inv state) (hstep : (system ι).step t state state') : Inv state' := by
  obtain ⟨⟨thread, lock⟩, hnext, rfl⟩ := Option.map_eq_some_iff.mp hstep
  refine ⟨?_, ?_, hinv.counter_step hcard hnext, hinv.waited_step hcard hnext⟩
  · exact hinv.writers.move (next_writersLock hnext)
      (count_update Thread.holdsWritersLock state.threads t thread) count_pos_of_mem
  · exact hinv.readers.move (next_readersLock hnext)
      (count_update Thread.holdsReadersLock state.threads t thread) count_pos_of_mem

theorem Inv.of_reachable (hcard : Fintype.card ι < 2 ^ 63) {state : State ι}
    (hreach : Reachable (system ι) state) : Inv state :=
  hreach.invariant Inv.init (Inv.step hcard)

end Step

/-- **Exclusion.** In every reachable state a thread in its write section is alone, and the counter
is the number of threads between the increment of `ReadLock` and the decrement of `ReadUnlock`. -/
theorem rwLock_exclusion (hcard : Fintype.card ι < 2 ^ 63) {state : State ι}
    (hreach : Reachable (system ι) state) :
    (∀ t, (state.threads t).InWriteSection → ∀ u, u ≠ t →
        ¬(state.threads u).InWriteSection ∧ ¬(state.threads u).InReadSection) ∧
      state.lock.readersCount.toInt = (count Thread.counted state.threads : Int) := by
  have hinv := Inv.of_reachable hcard hreach
  refine ⟨?_, ?_⟩
  · intro t ht u hne
    refine ⟨fun hu => ?_, fun hu => ?_⟩
    · refine hne (eq_of_count_le_one hinv.writers.2 ?_ ?_)
      · simp [Thread.holdsWritersLock, show (state.threads u).pc = .writing from hu]
      · simp [Thread.holdsWritersLock, show (state.threads t).pc = .writing from ht]
    · have hzero := count_eq_zero_iff.mp (hinv.waited t ht) u
      simp [Thread.counted, show (state.threads u).pc = .reading from hu] at hzero
  · have hbound := count_le_card Thread.counted state.threads
    rw [← hinv.counter] at hbound ⊢
    exact BitVec.toInt_eq_toNat_of_lt (by omega)

/-- A writer in its section, with a reader about to enter. -/
theorem rwLock_exclusion_writer_first :
    ∃ state : State (Fin 2), Reachable (system (Fin 2)) state
      ∧ (state.threads 0).InWriteSection ∧ (state.threads 1).pc = .readLockSpin
      ∧ ¬(state.threads 1).InReadSection := by
  let start : State (Fin 2) :=
    { lock := rwLockInit { readersCount := 7, readersLock := ⟨1⟩, writersLock := ⟨1⟩ }
      threads := fun t => { pc := .outside, todo := [if t = 0 then .write else .read] } }
  have hstart : Reachable (system (Fin 2)) start := .init ⟨⟨_, rfl⟩, fun _ => rfl⟩
  have hexecute : execute advance [0, 1, 0, 0] start = some _ := rfl
  have hreach := hstart.execute hexecute
  exact ⟨_, hreach, rfl, rfl, ((rwLock_exclusion (by decide) hreach).1 0 rfl 1 (by decide)).2⟩

end Acos.Atomic.Rw
