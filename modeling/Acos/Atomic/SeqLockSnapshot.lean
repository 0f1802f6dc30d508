import Acos.Atomic.SeqLock
import Mathlib.Order.Interval.Finset.Nat
import Mathlib.Data.Nat.Count
import Mathlib.Tactic.IntervalCases

/-!
# Snapshot consistency of the sequence lock

The counter is twice the number of started write sections, less one while a section is open. Two
equal even loads of it therefore enclose no increment at all as long as the counter has not wrapped,
so no section was open in between, and what was read is what the last completed section left.
-/

namespace Acos.Atomic.Seq

open Transition Interleaving

variable {ι Var Val : Type} [DecidableEq Var]

/-! ### What one instruction does -/

section Next

variable {action : Action Var Val} {pc pc' : Pc Var Val} {shared shared' : Shared Var Val}

theorem next_lock (hnext : next action pc shared = some (pc', shared')) :
    SpinLock.Move shared.lock.lock pc.holdsLock shared'.lock.lock pc'.holdsLock := by
  cases action <;> cases pc <;> simp only [next, Option.some.injEq, Prod.mk.injEq, reduceCtorEq]
    at hnext <;> obtain ⟨rfl, rfl⟩ := hnext
  case go.writeLockSpin =>
    have hmove := SpinLock.Move.ofLock shared.lock.lock
    cases hfree : (spinLockLock shared.lock.lock).2 <;> rw [hfree] at hmove <;>
      simpa only [Pc.holdsLock, hfree, if_true, if_false, Bool.false_eq_true] using hmove
  case go.writeUnlockRelease => exact .release _
  all_goals exact .stay _ _

/-- The counter moves only at the two increments of a write section, which open and close it. -/
theorem next_count (hnext : next action pc shared = some (pc', shared')) :
    (shared'.lock.count = shared.lock.count ∧ pc ≠ .writeLockAdd
      ∧ pc'.betweenIncrements = pc.betweenIncrements) ∨
    (shared'.lock.count = shared.lock.count + 1 ∧ pc = .writeLockAdd ∧ pc' = .writing) ∨
    (shared'.lock.count = shared.lock.count + 1 ∧ pc = .writeUnlockAdd
      ∧ pc' = .writeUnlockRelease) := by
  cases action <;> cases pc <;> simp only [next, Option.some.injEq, Prod.mk.injEq, reduceCtorEq]
    at hnext <;> obtain ⟨rfl, rfl⟩ := hnext
  case go.writeLockSpin =>
    refine Or.inl ⟨rfl, by simp, ?_⟩
    split_ifs <;> rfl
  case go.writeLockAdd => exact Or.inr (Or.inl ⟨rfl, rfl, rfl⟩)
  case go.writeUnlockAdd => exact Or.inr (Or.inr ⟨rfl, rfl, rfl⟩)
  all_goals exact Or.inl ⟨rfl, by simp, rfl⟩

/-- Only a thread inside a write section writes the variables. -/
theorem next_memory (hnext : next action pc shared = some (pc', shared')) :
    shared'.memory = shared.memory ∨ (pc = .writing ∧ pc' = .writing) := by
  cases action <;> cases pc <;> simp only [next, Option.some.injEq, Prod.mk.injEq, reduceCtorEq]
    at hnext <;> obtain ⟨rfl, rfl⟩ := hnext
  case write.writing => exact Or.inr ⟨rfl, rfl⟩
  all_goals exact Or.inl rfl

/-- The loaded counter and the values read since, of a thread in a read section. -/
def Pc.snapshot : Pc Var Val → Option (Word × List (Var × Val))
  | .reading s values | .readUnlockLoad s values => some (s, values)
  | _ => none

/-- A read section begins at its load of the counter and grows by one read at a time. -/
theorem next_snapshot (hnext : next action pc shared = some (pc', shared')) {s : Word}
    {values : List (Var × Val)} (hsnapshot : pc'.snapshot = some (s, values)) :
    (pc = .readLockLoad ∧ s = shared.lock.count ∧ values = []) ∨
    pc.snapshot = some (s, values) ∨
    ∃ before x, pc.snapshot = some (s, before) ∧ values = before ++ [(x, shared.memory x)] := by
  cases action <;> cases pc <;> simp only [next, Option.some.injEq, Prod.mk.injEq, reduceCtorEq]
    at hnext <;> obtain ⟨rfl, rfl⟩ := hnext
  case go.writeLockSpin => split_ifs at hsnapshot <;> simp [Pc.snapshot] at hsnapshot
  case go.readLockLoad =>
    obtain ⟨rfl, rfl⟩ : shared.lock.count = s ∧ [] = values := by
      simpa [Pc.snapshot, seqLockReadLock, atomicLoad] using hsnapshot
    exact Or.inl ⟨rfl, rfl, rfl⟩
  case read.reading x s' before =>
    obtain ⟨rfl, rfl⟩ : s' = s ∧ before ++ [(x, shared.memory x)] = values := by
      simpa [Pc.snapshot] using hsnapshot
    exact Or.inr (Or.inr ⟨before, x, rfl, rfl⟩)
  case leave.reading => exact Or.inr (Or.inl hsnapshot)
  all_goals simp [Pc.snapshot] at hsnapshot

end Next

variable [Fintype ι] [DecidableEq ι]

/-! ### The counter and the spinlock -/

structure Inv (state : State ι Var Val) : Prop where
  lock : state.shared.lock.lock.Counts (count Pc.holdsLock state.threads)
  parity : state.shared.lock.count.toNat % 2 = count Pc.betweenIncrements state.threads

omit [DecidableEq Var] [DecidableEq ι] in
theorem count_betweenIncrements_le (threads : ι → Pc Var Val) :
    count Pc.betweenIncrements threads ≤ count Pc.holdsLock threads := by
  refine Finset.card_le_card fun t ht => ?_
  simp only [Finset.mem_filter, Finset.mem_univ, true_and] at ht ⊢
  cases hpc : threads t <;> simp_all [Pc.betweenIncrements, Pc.holdsLock]

omit [DecidableEq Var] [DecidableEq ι] in
theorem Inv.init (state : State ι Var Val) (hinit : Initial state) : Inv state := by
  obtain ⟨⟨memory, hlock⟩, hpc⟩ := hinit
  have hzero : ∀ p : Pc Var Val → Bool, p .outside = false → count p state.threads = 0 :=
    fun p hp => count_eq_zero_iff.mpr fun t => by rw [hpc t, hp]
  refine ⟨?_, ?_⟩
  · rw [hlock, hzero _ rfl]
    exact SpinLock.Counts.init _
  · rw [hlock, hzero _ rfl]
    rfl

theorem toNat_add_one_mod_two (word : Word) : (word + 1).toNat % 2 = (word.toNat + 1) % 2 := by
  rw [BitVec.toNat_add, show (1 : Word).toNat = 1 from rfl]
  omega

theorem Inv.step (label : ι × Action Var Val) (state state' : State ι Var Val)
    (hinv : Inv state) (hstep : advance label state = some state') : Inv state' := by
  obtain ⟨⟨pc, shared⟩, hnext, rfl⟩ := Option.map_eq_some_iff.mp hstep
  have hlock : shared.lock.lock.Counts
      (count Pc.holdsLock (Function.update state.threads label.1 pc)) :=
    hinv.lock.move (next_lock hnext)
      (count_update Pc.holdsLock state.threads label.1 pc) count_pos_of_mem
  refine ⟨hlock, ?_⟩
  change shared.lock.count.toNat % 2
    = count Pc.betweenIncrements (Function.update state.threads label.1 pc)
  have hbound := (count_betweenIncrements_le (Function.update state.threads label.1 pc)).trans
    hlock.2
  have hcount := count_update Pc.betweenIncrements state.threads label.1 pc
  have hparity := hinv.parity
  rcases next_count hnext with ⟨hword, _, hsame⟩ | ⟨hword, hold, rfl⟩ | ⟨hword, hold, rfl⟩
  · rw [hsame] at hcount
    rw [hword, hparity, Nat.add_right_cancel hcount]
  · rw [hold] at hcount
    simp only [Pc.betweenIncrements, Bool.toNat_false, Bool.toNat_true, Nat.add_zero] at hcount
    rw [hword, toNat_add_one_mod_two]
    omega
  · rw [hold] at hcount
    simp only [Pc.betweenIncrements, Bool.toNat_false, Bool.toNat_true, Nat.add_zero] at hcount
    rw [hword, toNat_add_one_mod_two]
    omega

theorem Inv.of_reachable {state : State ι Var Val}
    (hreach : Reachable (system ι Var Val) state) : Inv state :=
  hreach.invariant Inv.init Inv.step

/-! ### Two moments of a run -/

section Run

variable (run : Run (system ι Var Val))

/-- The instruction at moment `k` is the increment of `WriteLock`. -/
def opensSection (k : Nat) : Bool :=
  match (run.state k).threads (run.label k).1 with
  | .writeLockAdd => true
  | _ => false

/-- The instruction at moment `k` is the increment of `WriteUnlock`. -/
def closesSection (k : Nat) : Bool :=
  match (run.state k).threads (run.label k).1 with
  | .writeUnlockAdd => true
  | _ => false

/-- The number of write sections started before moment `i`. -/
def writeSections (i : Nat) : Nat := Nat.count (fun k => opensSection run k = true) i

/-- The number of writers between their two increments at moment `i`. -/
def openSections (i : Nat) : Nat := count Pc.betweenIncrements (run.state i).threads

omit [Fintype ι] in
theorem moment {i : Nat} (hi : i < run.length) :
    ∃ pc shared, next (run.label i).2 ((run.state i).threads (run.label i).1) (run.state i).shared
        = some (pc, shared)
      ∧ run.state (i + 1)
          = ⟨shared, Function.update (run.state i).threads (run.label i).1 pc⟩ := by
  obtain ⟨⟨pc, shared⟩, hnext, hstate⟩ := Option.map_eq_some_iff.mp (run.steps i hi)
  exact ⟨pc, shared, hnext, hstate.symm⟩

/-- One instruction opens a section, closes one, or leaves the counter alone. -/
theorem moment_count {i : Nat} (hi : i < run.length) :
    (opensSection run i = true ∧ closesSection run i = false
      ∧ openSections run (i + 1) = openSections run i + 1
      ∧ (run.state (i + 1)).shared.lock.count = (run.state i).shared.lock.count + 1) ∨
    (opensSection run i = false ∧ closesSection run i = true
      ∧ openSections run (i + 1) + 1 = openSections run i
      ∧ (run.state (i + 1)).shared.lock.count = (run.state i).shared.lock.count + 1) ∨
    (opensSection run i = false ∧ openSections run (i + 1) = openSections run i
      ∧ (run.state (i + 1)).shared.lock.count = (run.state i).shared.lock.count) := by
  obtain ⟨pc, shared, hnext, hstate⟩ := moment run hi
  have hcount := count_update Pc.betweenIncrements (run.state i).threads (run.label i).1 pc
  have hopen : openSections run (i + 1) = count Pc.betweenIncrements
      (Function.update (run.state i).threads (run.label i).1 pc) := by
    rw [openSections, hstate]
  rw [← hopen] at hcount
  rcases next_count hnext with ⟨hword, hne, hsame⟩ | ⟨hword, hold, rfl⟩ | ⟨hword, hold, rfl⟩
  · refine Or.inr (Or.inr ⟨?_, ?_, by rw [hstate, hword]⟩)
    · simp only [opensSection]
    · rw [hsame] at hcount
      exact Nat.add_right_cancel hcount
  · refine Or.inl ⟨by simp [opensSection, hold], by simp [closesSection, hold], ?_,
      by rw [hstate, hword]⟩
    rw [hold] at hcount
    exact hcount
  · refine Or.inr (Or.inl ⟨by simp [opensSection, hold], by simp [closesSection, hold], ?_,
      by rw [hstate, hword]⟩)
    rw [hold] at hcount
    exact hcount

omit [Fintype ι] in
theorem writeSections_succ (i : Nat) :
    writeSections run (i + 1) = writeSections run i + (opensSection run i).toNat := by
  rw [writeSections, Nat.count_succ, ← writeSections]
  cases opensSection run i <;> simp

omit [Fintype ι] in
theorem writeSections_mono {i j : Nat} (hij : i ≤ j) :
    writeSections run i ≤ writeSections run j := Nat.count_monotone _ hij

/-- The counter is twice the number of started sections, less the open one, modulo `2 ^ 64`. -/
theorem count_add_openSections : ∀ i, i ≤ run.length →
    openSections run i ≤ writeSections run i ∧
      ((run.state i).shared.lock.count.toNat + openSections run i) % 2 ^ 64
        = (2 * writeSections run i) % 2 ^ 64 := by
  refine run.induction ?_ ?_
  · obtain ⟨⟨memory, hlock⟩, hpc⟩ := run.starts
    have hopen : openSections run 0 = 0 := count_eq_zero_iff.mpr fun t => by rw [hpc t]; rfl
    have hsections : writeSections run 0 = 0 := by simp [writeSections]
    rw [hopen, hsections, hlock]
    exact ⟨le_rfl, rfl⟩
  · intro i hi ⟨hle, hmod⟩
    have hsections := writeSections_succ run i
    rcases moment_count run hi with ⟨hopens, _, hopen, hword⟩ | ⟨hopens, _, hopen, hword⟩ |
      ⟨hopens, hopen, hword⟩
    all_goals rw [hopens] at hsections
    · rw [Bool.toNat_true] at hsections
      rw [hword, BitVec.toNat_add, show (1 : Word).toNat = 1 from rfl, hsections, hopen]
      omega
    · rw [Bool.toNat_false, Nat.add_zero] at hsections
      rw [hword, BitVec.toNat_add, show (1 : Word).toNat = 1 from rfl, hsections]
      omega
    · rw [Bool.toNat_false, Nat.add_zero] at hsections
      rw [hword, hsections, hopen]
      exact ⟨hle, hmod⟩

/-- Before the counter wraps it determines the number of started sections. -/
theorem count_eq_two_mul {i : Nat} (hi : i ≤ run.length)
    (hsections : writeSections run i < 2 ^ 63) :
    (run.state i).shared.lock.count.toNat + openSections run i = 2 * writeSections run i := by
  obtain ⟨hle, hmod⟩ := count_add_openSections run i hi
  have hlt := (run.state i).shared.lock.count.isLt
  have hinv := Inv.of_reachable (run.reachable i hi)
  have hone : openSections run i ≤ 1 := (count_betweenIncrements_le _).trans hinv.lock.2
  omega

/-- **No section between two equal even loads.** -/
theorem openSections_eq_zero_of_count_eq {i j : Nat} (hij : i ≤ j) (hj : j ≤ run.length)
    (hsections : writeSections run run.length < 2 ^ 63)
    (hcount : (run.state j).shared.lock.count = (run.state i).shared.lock.count)
    (heven : (run.state j).shared.lock.count.toNat % 2 = 0) :
    ∀ k, i ≤ k → k ≤ j → openSections run k = 0 := by
  have hbound : ∀ k, k ≤ j → writeSections run k < 2 ^ 63 := fun k hk =>
    lt_of_le_of_lt (writeSections_mono run (hk.trans hj)) hsections
  have hone : ∀ k, k ≤ j → openSections run k ≤ 1 := fun k hk =>
    (count_betweenIncrements_le _).trans (Inv.of_reachable (run.reachable k (hk.trans hj))).lock.2
  have hatI := count_eq_two_mul run (hij.trans hj) (hbound i hij)
  have hatJ := count_eq_two_mul run hj (hbound j le_rfl)
  have honeI := hone i hij
  have honeJ := hone j le_rfl
  rw [hcount] at hatJ heven
  have hsame : writeSections run i = writeSections run j := by omega
  intro k hik
  induction k, hik using Nat.le_induction with
  | base =>
      intro _
      omega
  | succ k hik ih =>
      intro hkj
      have hzero := ih (by omega)
      have hmonoI := writeSections_mono run hik
      have hmonoJ := writeSections_mono run hkj
      have hsucc := writeSections_succ run k
      rcases moment_count run (by omega : k < run.length) with ⟨hopens, _⟩ |
        ⟨_, _, hopen, _⟩ | ⟨_, hopen, _⟩
      · rw [hopens, Bool.toNat_true] at hsucc
        omega
      · omega
      · rw [hopen, hzero]

theorem memory_succ {k : Nat} (hk : k < run.length) (hopen : openSections run (k + 1) = 0) :
    (run.state (k + 1)).shared.memory = (run.state k).shared.memory := by
  obtain ⟨pc, shared, hnext, hstate⟩ := moment run hk
  rcases next_memory hnext with hsame | ⟨_, rfl⟩
  · rw [hstate, hsame]
  · have hnone := count_eq_zero_iff.mp hopen (run.label k).1
    simp only [hstate, Function.update_self] at hnone
    cases hnone

/-- What no open section has touched is what the last completed one, or the initial state, left. -/
theorem exists_completed_memory : ∀ i, i ≤ run.length → openSections run i = 0 →
    ∃ c, c ≤ i ∧ (c = 0 ∨ ∃ k, c = k + 1 ∧ closesSection run k = true)
      ∧ (run.state c).shared.memory = (run.state i).shared.memory := by
  refine run.induction ?_ ?_
  · exact fun _ => ⟨0, le_rfl, Or.inl rfl, rfl⟩
  · intro i hi ih hopen
    rcases moment_count run hi with ⟨_, _, hgrow, _⟩ | ⟨_, hcloses, _, _⟩ | ⟨_, hsame, _⟩
    · omega
    · exact ⟨i + 1, le_rfl, Or.inr ⟨i, rfl, hcloses⟩, rfl⟩
    · obtain ⟨c, hci, hcompleted, hmemory⟩ := ih (hsame ▸ hopen)
      exact ⟨c, hci.trans (Nat.le_succ i), hcompleted,
        hmemory.trans (memory_succ run hi hopen).symm⟩

/-- Reader `r` executes the load of `ReadLock` at moment `k`. -/
def LoadsFirst (r : ι) (k : Nat) : Prop :=
  (run.label k).1 = r ∧ (run.state k).threads r = .readLockLoad

omit [Fintype ι] in
/-- After its load at moment `i` a reader holds that counter and values read since. -/
theorem snapshot_of_loadsFirst {r : ι} {i j : Nat} (hj : j ≤ run.length)
    (honly : ∀ k, i < k → k < j → ¬LoadsFirst run r k) :
    ∀ k, i < k → k ≤ j → ∀ s values, LoadsFirst run r i →
      ((run.state k).threads r).snapshot = some (s, values) →
      s = (run.state i).shared.lock.count ∧
        ∀ x value, (x, value) ∈ values →
          ∃ m, i ≤ m ∧ m < k ∧ (run.state m).shared.memory x = value := by
  intro k hik
  induction k, hik using Nat.le_induction with
  | base =>
      intro hkj s values hload hsnapshot
      obtain ⟨pc, shared, hnext, hstate⟩ := moment run (by omega : i < run.length)
      rw [hload.1, hload.2] at hnext
      simp only [hstate, hload.1, Function.update_self] at hsnapshot
      rcases next_snapshot hnext hsnapshot with ⟨_, hs, rfl⟩ | hbad | ⟨before, x, hbad, _⟩
      · exact ⟨hs, by simp⟩
      · cases hbad
      · cases hbad
  | succ k hik ih =>
      intro hkj s values hload hsnapshot
      have hrest := ih (by omega)
      obtain ⟨pc, shared, hnext, hstate⟩ := moment run (by omega : k < run.length)
      have hextend : ∀ {values : List (Var × Val)}, (∀ x value, (x, value) ∈ values →
            ∃ m, i ≤ m ∧ m < k ∧ (run.state m).shared.memory x = value) →
          ∀ x value, (x, value) ∈ values →
            ∃ m, i ≤ m ∧ m < k + 1 ∧ (run.state m).shared.memory x = value := by
        intro values hvalues x value hmem
        obtain ⟨m, him, hmk, hread⟩ := hvalues x value hmem
        exact ⟨m, him, hmk.trans (Nat.lt_succ_self k), hread⟩
      by_cases hr : (run.label k).1 = r
      · rw [hr] at hnext
        simp only [hstate, hr, Function.update_self] at hsnapshot
        rcases next_snapshot hnext hsnapshot with ⟨hpc, _⟩ | hsame | ⟨before, x, hbefore, rfl⟩
        · exact absurd ⟨hr, hpc⟩ (honly k (by omega) (by omega))
        · obtain ⟨hs, hvalues⟩ := hrest s values hload hsame
          exact ⟨hs, hextend hvalues⟩
        · obtain ⟨hs, hvalues⟩ := hrest s before hload hbefore
          refine ⟨hs, fun y value hmem => ?_⟩
          rcases List.mem_append.mp hmem with hold | hnew
          · exact hextend hvalues y value hold
          · obtain ⟨rfl, rfl⟩ : y = x ∧ value = (run.state k).shared.memory x := by
              simpa using hnew
            exact ⟨k, by omega, Nat.lt_succ_self k, rfl⟩
      · simp only [hstate, Function.update_of_ne (Ne.symm hr)] at hsnapshot
        obtain ⟨hs, hvalues⟩ := hrest s values hload hsnapshot
        exact ⟨hs, hextend hvalues⟩

end Run

omit [DecidableEq Var] in
theorem seqLockReadUnlock_eq_true {l : SeqLock} {value : Word}
    (hreturn : seqLockReadUnlock l value = true) : l.count = value ∧ l.count.toNat % 2 = 0 := by
  simp only [seqLockReadUnlock, atomicLoad, Bool.and_eq_true, beq_iff_eq] at hreturn
  refine ⟨hreturn.1, ?_⟩
  have hdvd : (2 : Int) ∣ l.count.toInt := Int.dvd_of_tmod_eq_zero hreturn.2
  rw [BitVec.toInt_eq_toNat_cond] at hdvd
  split_ifs at hdvd <;> omega

/-- **Snapshot consistency.** In a run with fewer than `2 ^ 63` write sections: the counter is odd
exactly while a writer is between its increments, there is at most one such writer and it holds the
spinlock; and a read section whose `ReadUnlock` returns 1 overlaps no write section, so that all its
values were left by one completed section or by the initial state. -/
theorem seqLock_snapshot (run : Run (system ι Var Val))
    (hsections : writeSections run run.length < 2 ^ 63) :
    (∀ i, i ≤ run.length →
      ((run.state i).shared.lock.count.toNat % 2 = 1
        ↔ ∃ w, ((run.state i).threads w).betweenIncrements = true)
      ∧ (∀ w w', ((run.state i).threads w).betweenIncrements = true →
          ((run.state i).threads w').betweenIncrements = true → w = w')
      ∧ (∀ w, ((run.state i).threads w).betweenIncrements = true →
          (run.state i).shared.lock.lock.lock = 1)) ∧
    (∀ r i j s values, i < j → j < run.length →
      LoadsFirst run r i → (∀ k, i < k → k < j → ¬LoadsFirst run r k) →
      (run.label j).1 = r → (run.state j).threads r = .readUnlockLoad s values →
      seqLockReadUnlock (run.state j).shared.lock s = true →
      (∀ k, i ≤ k → k ≤ j → ∀ w, ((run.state k).threads w).betweenIncrements = false)
      ∧ ∃ c, c ≤ i ∧ (c = 0 ∨ ∃ k, c = k + 1 ∧ closesSection run k = true)
          ∧ ∀ x value, (x, value) ∈ values → (run.state c).shared.memory x = value) := by
  refine ⟨?_, ?_⟩
  · intro i hi
    have hinv := Inv.of_reachable (run.reachable i hi)
    have hle := count_betweenIncrements_le (run.state i).threads
    refine ⟨?_, ?_, ?_⟩
    · rw [hinv.parity]
      constructor
      · intro hone
        by_contra hnone
        have hzero : count Pc.betweenIncrements (run.state i).threads = 0 :=
          count_eq_zero_iff.mpr fun w => by simpa using fun h => hnone ⟨w, h⟩
        omega
      · rintro ⟨w, hw⟩
        exact le_antisymm (hle.trans hinv.lock.2) (count_pos_of_mem hw)
    · exact fun w w' hw hw' => eq_of_count_le_one (hle.trans hinv.lock.2) hw hw'
    · exact fun w hw => hinv.lock.lock_eq_one (lt_of_lt_of_le (count_pos_of_mem hw) hle)
  · intro r i j s values hij hj hload honly _ hpc hreturn
    obtain ⟨hcount, heven⟩ := seqLockReadUnlock_eq_true hreturn
    obtain ⟨hs, hvalues⟩ := snapshot_of_loadsFirst run hj.le honly j hij le_rfl s values hload
      (by rw [hpc]; rfl)
    have hclosed := openSections_eq_zero_of_count_eq run hij.le hj.le hsections
      (hcount.trans hs) heven
    refine ⟨fun k hik hkj => count_eq_zero_iff.mp (hclosed k hik hkj), ?_⟩
    obtain ⟨c, hci, hcompleted, hmemory⟩ := exists_completed_memory run i (hij.le.trans hj.le)
      (hclosed i le_rfl hij.le)
    have hconstant : ∀ k, i ≤ k → k ≤ j →
        (run.state k).shared.memory = (run.state i).shared.memory := by
      intro k hik
      induction k, hik using Nat.le_induction with
      | base => exact fun _ => rfl
      | succ k hik ih =>
          intro hkj
          rw [memory_succ run (by omega) (hclosed (k + 1) (by omega) hkj), ih (by omega)]
    refine ⟨c, hci, hcompleted, fun x value hmem => ?_⟩
    obtain ⟨m, him, hmj, hread⟩ := hvalues x value hmem
    rw [hmemory, ← hconstant m him hmj.le, hread]

/-- A writer sets both variables to 5 and a reader sees them. -/
theorem seqLock_snapshot_after_one_write :
    ∃ run : Run (system (Fin 2) Bool Nat), writeSections run run.length < 2 ^ 63
      ∧ (run.state 13).threads 1 = .readUnlockLoad 2 [(true, 5), (false, 5)]
      ∧ ∀ w, ((run.state 11).threads w).betweenIncrements = false := by
  let start : State (Fin 2) Bool Nat :=
    { shared := { lock := seqLockInit ⟨⟨1⟩, 9⟩, memory := fun _ => 0 },
      threads := fun _ => .outside }
  let labels : List (Fin 2 × Action Bool Nat) :=
    [(0, .startWrite), (0, .go), (0, .go), (0, .write true 5), (0, .write false 5), (0, .leave),
      (0, .go), (0, .go), (1, .startRead), (1, .go), (1, .read true), (1, .read false),
      (1, .leave), (1, .go)]
  let run : Run (system (Fin 2) Bool Nat) :=
    .ofExecute start ⟨⟨_, rfl⟩, fun _ => rfl⟩ labels (0, .go) rfl
  have hsections : writeSections run run.length < 2 ^ 63 := by
    have hone : writeSections run run.length ≤ run.length := Nat.count_le _
    exact lt_of_le_of_lt hone (by decide)
  refine ⟨run, hsections, rfl, ?_⟩
  have honly : ∀ k, 9 < k → k < 13 → ¬LoadsFirst run 1 k := by
    intro k hlo hhi
    interval_cases k <;> rintro ⟨_, hpc⟩ <;> cases hpc
  exact ((seqLock_snapshot run hsections).2 1 9 13 2 _ (by decide) (by decide) ⟨rfl, rfl⟩ honly
    rfl rfl (by decide)).1 11 (by decide) (by decide)

end Acos.Atomic.Seq
